import NeKernel.FS.OpenHeFSFileMgr
import NeKernel.NeKit.AsciiUtils

/-!
# Paths in memory

`hefs_split_path` cuts a path at its last slash into two buffers of 256 bytes. Here it is on the bytes of
the path and of the buffers; what it leaves there is what `hefsSplitPath` says of the characters
(`splitPath_refines`). The directory with a slash behind it and the name are the path again, unless the
path has no slash but the first, which is then the directory itself (`splitPath_joins`).
-/

namespace NeKernel.FS

open ByteStore CStrings WordCopy NeKit

/-- `'/'`. -/
def kSlash : UInt8 := 0x2F

/-- The loop over the characters: where the last slash is. -/
def cutOf (path : Store) (len : Nat) : Nat := forLoop (fun i cut => if path i = kSlash then i else cut) len 0

/-- `for (i = 0; i < n; ++i) buf[i] = src[off + i]; buf[n] = 0;` -/
def copyString (buf src : Store) (off n : Nat) : Store :=
  Function.update (forLoop (fun i buf => Function.update buf i (src (off + i))) n buf) n 0

/-- `hefs_split_path`, with the two buffers it writes. -/
def Detail.hefsSplitPath (path : Option CString) (dir name : Store) : Bool × Store × Store :=
  match path with
  | none => (false, dir, name)
  | some path =>
      if path.bytes 0 ≠ kSlash then (false, dir, name)
      else
        let len := rtStringLenMax path.bytes kOpenHeFSFileNameLen
        if len < 2 ∨ kOpenHeFSFileNameLen ≤ len then (false, dir, name)
        else
          let cut := cutOf path.bytes len
          let nameLen := len - cut - 1
          if nameLen < 1 ∨ kOpenHeFSFileNameLen ≤ nameLen then (false, dir, name)
          else
            let dirLen := if cut ≠ 0 then cut else 1
            (true, copyString dir path.bytes 0 dirLen, copyString name path.bytes (cut + 1) nameLen)

variable {path : CString} {dir name src buf : Store} {off n len : Nat}

/-! ## The cut -/

/-- The last slash of a path that begins with one. -/
theorem cutOf_spec (hfirst : src 0 = kSlash) (hlen : 0 < len) :
    cutOf src len < len ∧ src (cutOf src len) = kSlash ∧ ∀ j < len, cutOf src len < j → src j ≠ kSlash := by
  have hinv : (len = 0 ∧ cutOf src len = 0) ∨ (cutOf src len < len ∧ src (cutOf src len) = kSlash ∧
      ∀ j < len, cutOf src len < j → src j ≠ kSlash) := by
    refine forLoop_inv (I := fun i cut => (i = 0 ∧ cut = 0) ∨
      (cut < i ∧ src cut = kSlash ∧ ∀ j < i, cut < j → src j ≠ kSlash)) (.inl ⟨rfl, rfl⟩) ?_
    intro i _ cut hi
    right
    by_cases hslash : src i = kSlash
    · rw [if_pos hslash]
      exact ⟨Nat.lt_succ_self i, hslash, fun j hj hlt => by omega⟩
    · rw [if_neg hslash]
      rcases hi with ⟨rfl, -⟩ | ⟨hlt, hcut, hafter⟩
      · exact absurd hfirst hslash
      · refine ⟨Nat.lt_succ_of_lt hlt, hcut, fun j hj hcj => ?_⟩
        rcases Nat.lt_succ_iff_lt_or_eq.mp hj with hj | rfl
        · exact hafter j hj hcj
        · exact hslash
  rcases hinv with ⟨hzero, -⟩ | h
  · omega
  · exact h

/-! ## The copies -/

theorem copyString_apply (buf src : Store) (off n x : Nat) :
    copyString buf src off n x = if x < n then src (off + x) else if x = n then 0 else buf x := by
  have hloop : forLoop (fun i buf => Function.update buf i (src (off + i))) n buf =
      fun x => if x < n then src (off + x) else buf x := by
    induction n with
    | zero => simp [forLoop]
    | succ n ih =>
        funext x
        rw [forLoop, ih, Function.update_apply]
        by_cases hx : x = n
        · subst hx
          simp
        · rw [if_neg hx]
          by_cases hlt : x < n
          · rw [if_pos hlt, if_pos (Nat.lt_succ_of_lt hlt)]
          · rw [if_neg hlt, if_neg (by omega)]
  rw [copyString, hloop, Function.update_apply]
  by_cases hx : x = n
  · subst hx
    simp
  · rw [if_neg hx, if_neg hx]

/-- What a copy leaves is a string, when it copies no zero. -/
def copied (buf src : Store) (off n : Nat) (h : ∀ i < n, src (off + i) ≠ 0) : CString where
  bytes := copyString buf src off n
  len := n
  noNul i hi := by
    rw [copyString_apply, if_pos hi]
    exact h i hi
  nul := by
    rw [copyString_apply]
    simp

theorem copied_chars (buf src : Store) (off n : Nat) (h : ∀ i < n, src (off + i) ≠ 0) :
    (copied buf src off n h).chars = (List.range n).map fun i => src (off + i) := by
  refine List.map_congr_left fun i hi => ?_
  show copyString buf src off n i = _
  rw [copyString_apply]
  exact if_pos (List.mem_range.mp hi)

/-- It writes the characters and the zero only. -/
theorem copyString_onlyAt {room : Nat} (h : n < room) : OnlyAt buf (copyString buf src off n) 0 room := by
  intro x hx
  rw [copyString_apply, if_neg (by omega), if_neg (by omega)]

/-! ## What comes back -/

/-- The path is cut at `cut`, its last slash, and a name is left behind it. -/
structure CutAt (path : CString) (cut : Nat) : Prop where
  first : path.bytes 0 = kSlash
  short : path.len < kOpenHeFSFileNameLen
  slash : path.bytes cut = kSlash
  last : ∀ j < path.len, cut < j → path.bytes j ≠ kSlash
  name : cut + 1 < path.len

/-- The length of the directory. -/
def dirLen (cut : Nat) : Nat := if cut ≠ 0 then cut else 1

/-- **What `hefs_split_path` does**: it refuses a path that is not absolute, is too long or ends in a slash,
or it cuts it. -/
theorem splitPath_cases (path : CString) (dir name : Store) :
    (Detail.hefsSplitPath (some path) dir name = (false, dir, name) ∧
      (path.bytes 0 ≠ kSlash ∨ kOpenHeFSFileNameLen ≤ path.len ∨ path.bytes (path.len - 1) = kSlash)) ∨
    ∃ cut, CutAt path cut ∧ Detail.hefsSplitPath (some path) dir name =
      (true, copyString dir path.bytes 0 (dirLen cut),
        copyString name path.bytes (cut + 1) (path.len - cut - 1)) := by
  have hmax : kOpenHeFSFileNameLen = 256 := rfl
  rw [Detail.hefsSplitPath, rtStringLenMax_eq]
  by_cases hfirst : path.bytes 0 = kSlash
  · rw [if_neg (not_not.mpr hfirst)]
    have hlen : 0 < path.len := by
      refine Nat.pos_of_ne_zero fun hzero => ?_
      have hnul := path.nul
      rw [hzero, hfirst] at hnul
      cases hnul
    by_cases hlong : min path.len kOpenHeFSFileNameLen < 2 ∨
        kOpenHeFSFileNameLen ≤ min path.len kOpenHeFSFileNameLen
    · refine .inl ⟨if_pos hlong, .inr ?_⟩
      by_cases hone : path.len = 1
      · exact .inr (by rw [hone]; exact hfirst)
      · exact .inl (by omega)
    · have hmin : min path.len kOpenHeFSFileNameLen = path.len := by omega
      rw [hmin] at hlong ⊢
      obtain ⟨hin, hcut, hafter⟩ := cutOf_spec hfirst hlen
      simp only [if_neg hlong]
      by_cases hname : path.len - cutOf path.bytes path.len - 1 < 1 ∨
          kOpenHeFSFileNameLen ≤ path.len - cutOf path.bytes path.len - 1
      · refine .inl ⟨if_pos hname, .inr (.inr ?_)⟩
        rw [show path.len - 1 = cutOf path.bytes path.len by omega]
        exact hcut
      · exact .inr ⟨_, ⟨hfirst, by omega, hcut, hafter, by omega⟩, if_neg hname⟩
  · exact .inl ⟨if_pos hfirst, .inl hfirst⟩

variable {cut : Nat}

theorem CutAt.dirLen_le (h : CutAt path cut) : dirLen cut ≤ path.len := by
  have := h.name
  rw [dirLen]
  split <;> omega

/-- The directory, as it is left in its buffer. -/
def CutAt.directory (h : CutAt path cut) (buf : Store) : CString :=
  copied buf path.bytes 0 (dirLen cut) fun i hi => by
    rw [Nat.zero_add]
    exact path.noNul i (Nat.lt_of_lt_of_le hi h.dirLen_le)

/-- The name. -/
def CutAt.basename (_ : CutAt path cut) (buf : Store) : CString :=
  copied buf path.bytes (cut + 1) (path.len - cut - 1) fun i hi => path.noNul _ (by omega)

section
variable (h : CutAt path cut)
include h

theorem CutAt.directory_chars : (h.directory buf).chars = (List.range (dirLen cut)).map path.bytes := by
  rw [CutAt.directory, copied_chars]
  simp only [Nat.zero_add]

theorem CutAt.basename_chars :
    (h.basename buf).chars = (List.range (path.len - cut - 1)).map fun i => path.bytes (cut + 1 + i) :=
  copied_chars _ _ _ _ _

theorem CutAt.basename_noSlash : kSlash ∉ (h.basename buf).chars := by
  rw [h.basename_chars, List.mem_map]
  rintro ⟨i, hi, hslash⟩
  have hi := List.mem_range.mp hi
  exact h.last (cut + 1 + i) (by omega) (by omega) hslash

/-- The characters of the path, at the cut. -/
theorem CutAt.chars_eq (buf : Store) :
    path.chars = (List.range cut).map path.bytes ++ kSlash :: (h.basename buf).chars := by
  have hname := h.name
  rw [CString.chars, show path.len = cut + (1 + (path.len - cut - 1)) by omega, List.range_add,
    List.map_append, List.range_add, List.map_append, List.map_append, h.basename_chars, ← h.slash]
  simp [Function.comp_def, Nat.add_assoc]

/-- The directory and the name joined again. -/
theorem CutAt.joins (buf buf' : Store) :
    (h.directory buf).chars ++ (if kSlash ∈ path.chars.tail then [kSlash] else []) ++ (h.basename buf').chars =
      path.chars := by
  rw [h.directory_chars, h.chars_eq buf']
  by_cases hzero : cut = 0
  · subst hzero
    have hnone : kSlash ∉ (([] : List UInt8) ++ kSlash :: (h.basename buf').chars).tail := h.basename_noSlash
    rw [List.range_zero, List.map_nil, if_neg hnone, dirLen, if_neg (not_not.mpr rfl), List.append_nil]
    simp [h.first]
  · obtain ⟨k, rfl⟩ := Nat.exists_eq_succ_of_ne_zero hzero
    have hmem : kSlash ∈ ((List.range (k + 1)).map path.bytes ++ kSlash :: (h.basename buf').chars).tail := by
      rw [List.range_succ_eq_map, List.map_cons, List.cons_append, List.tail_cons]
      exact List.mem_append_right _ List.mem_cons_self
    rw [if_pos hmem, dirLen, if_pos hzero]
    simp

theorem CutAt.unique {cut' : Nat} (h' : CutAt path cut') : cut = cut' := by
  have hname := h.name
  have hname' := h'.name
  rcases Nat.lt_trichotomy cut cut' with hlt | heq | hgt
  · exact absurd h'.slash (h.last cut' (by omega) hlt)
  · exact heq
  · exact absurd h.slash (h'.last cut (by omega) hgt)

end

/-! ## The same on characters -/

theorem foldl_range {σ : Type*} (f : σ → Nat → σ) (n : Nat) (s : σ) :
    (List.range n).foldl f s = forLoop (fun i s => f s i) n s := by
  induction n with
  | zero => rfl
  | succ n ih => rw [List.range_succ, List.foldl_append, ih, List.foldl_cons, List.foldl_nil, forLoop]

theorem hefsCut_chars (path : CString) : hefsCut path.chars = cutOf path.bytes path.len := by
  have hlen : path.chars.length = path.len := by rw [CString.chars, List.length_map, List.length_range]
  rw [hefsCut, foldl_range, hlen, cutOf]
  refine forLoop_congr fun i hi cut => ?_
  rw [List.getD_eq_getElem?_getD, CString.chars, List.getElem?_map, List.getElem?_range hi]
  rfl

theorem head?_chars (hlen : 0 < path.len) : path.chars.head? = some (path.bytes 0) := by
  rw [CString.chars, List.head?_map, List.head?_range, if_neg (Nat.ne_of_gt hlen), Option.map_some]

/-- **What is left in the buffers** is what `hefsSplitPath` makes of the characters. -/
theorem splitPath_refines (path : CString) (dir name : Store) :
    ((Detail.hefsSplitPath (some path) dir name).1 = false ∧ hefsSplitPath path.chars = none) ∨
    ∃ (cut : Nat) (h : CutAt path cut), Detail.hefsSplitPath (some path) dir name =
        (true, (h.directory dir).bytes, (h.basename name).bytes) ∧
      hefsSplitPath path.chars = some ((h.directory dir).chars, (h.basename name).chars) := by
  have hlen : path.chars.length = path.len := by rw [CString.chars, List.length_map, List.length_range]
  rcases splitPath_cases path dir name with ⟨hno, hwhy⟩ | ⟨cut, h, hyes⟩
  · refine .inl ⟨by rw [hno], ?_⟩
    by_cases hempty : path.len = 0
    · rw [hefsSplitPath, List.length_eq_zero_iff.mp (hlen.trans hempty), if_pos (by decide)]
    · have hhead := head?_chars (Nat.pos_of_ne_zero hempty)
      by_cases hfirst : path.bytes 0 = kSlash
      · obtain ⟨hin, -, hafter⟩ := cutOf_spec hfirst (Nat.pos_of_ne_zero hempty)
        have habs : ¬ (path.chars.head? ≠ some 0x2F) := by
          rw [hhead, hfirst]
          exact not_not.mpr rfl
        rw [hefsSplitPath, if_neg habs, hlen, hefsCut_chars]
        rcases hwhy with hbad | hlong | hend
        · exact absurd hfirst hbad
        · exact if_pos (.inr hlong)
        · -- the last slash is the last character, so no name is left
          have hcut : cutOf path.bytes path.len = path.len - 1 := by
            by_contra hne
            exact hafter (path.len - 1) (by omega) (by omega) hend
          split
          · rfl
          · exact if_pos (.inl (by omega))
      · rw [hefsSplitPath, if_pos]
        rw [hhead]
        exact fun heq => hfirst (Option.some.inj heq)
  · refine .inr ⟨cut, h, hyes, ?_⟩
    have hname := h.name
    have hshort := h.short
    have hcut : cutOf path.bytes path.len = cut := by
      obtain ⟨hin, hslash, hafter⟩ := cutOf_spec h.first (show 0 < path.len by omega)
      have hunique : CutAt path (cutOf path.bytes path.len) → cutOf path.bytes path.len = cut :=
        fun h' => h'.unique h
      refine hunique ⟨h.first, hshort, hslash, hafter, ?_⟩
      by_contra hend
      exact h.last (path.len - 1) (by omega) (by omega)
        (by rw [show path.len - 1 = cutOf path.bytes path.len by omega]; exact hslash)
    have habs : ¬ (path.chars.head? ≠ some 0x2F) := by
      rw [head?_chars (by omega), h.first]
      exact not_not.mpr rfl
    have hdir : path.chars.take (dirLen cut) = (h.directory dir).chars := by
      rw [h.directory_chars, CString.chars, ← List.map_take, List.take_range,
        Nat.min_eq_left h.dirLen_le]
    have hbase : path.chars.drop (cut + 1) = (h.basename name).chars := by
      rw [h.chars_eq name, List.append_cons]
      exact List.drop_left' (by simp)
    rw [hefsSplitPath, if_neg habs, hlen, hefsCut_chars, hcut, if_neg (by omega)]
    simp only
    rw [if_neg (by omega), ← hdir, ← hbase]
    rfl

/-! ## The halves of a path -/

/-- The directory and the name of a path, each with its zero inside 256 bytes, and with `sep` between them
they are the path. -/
structure Halves (path d n : CString) (sep : List UInt8) : Prop where
  dirFits : d.len < kOpenHeFSFileNameLen
  nameFits : n.len < kOpenHeFSFileNameLen
  named : n.chars ≠ []
  noSlash : kSlash ∉ n.chars
  joined : d.chars ++ sep ++ n.chars = path.chars

/-- A path is refused exactly when it is not absolute, is too long or ends in a slash, and otherwise its
halves are left in the buffers, which are not left while they are written. -/
structure SplitRight (path : CString) (dir name : Store) (sep : CString → List UInt8) : Prop where
  refused : (Detail.hefsSplitPath (some path) dir name).1 = false ↔
    path.bytes 0 ≠ kSlash ∨ kOpenHeFSFileNameLen ≤ path.len ∨ path.bytes (path.len - 1) = kSlash
  halves : (Detail.hefsSplitPath (some path) dir name).1 = true → ∃ d n : CString,
    Detail.hefsSplitPath (some path) dir name = (true, d.bytes, n.bytes) ∧
      OnlyAt dir d.bytes 0 kOpenHeFSFileNameLen ∧ OnlyAt name n.bytes 0 kOpenHeFSFileNameLen ∧
      Halves path d n (sep d)

/-- **The halves of a path** join to it with a slash between them, and without one when the path has no
slash but the first. -/
theorem splitPath_joins (path : CString) (dir name : Store) :
    SplitRight path dir name fun _ => if kSlash ∈ path.chars.tail then [kSlash] else [] := by
  rcases splitPath_cases path dir name with ⟨hno, hwhy⟩ | ⟨cut, h, hyes⟩
  · refine ⟨iff_of_true (by rw [hno]) hwhy, fun hbad => ?_⟩
    rw [hno] at hbad
    cases hbad
  · have hname := h.name
    have hshort := h.short
    have hdir := h.dirLen_le
    refine ⟨iff_of_false ?_ ?_, fun _ => ⟨h.directory dir, h.basename name, hyes, ?_, ?_, ?_⟩⟩
    · rw [hyes]
      exact Bool.true_eq_false_eq_False
    · rintro (hfirst | hlong | hend)
      · exact hfirst h.first
      · omega
      · exact h.last (path.len - 1) (by omega) (by omega) hend
    · exact copyString_onlyAt (Nat.lt_of_le_of_lt hdir hshort)
    · exact copyString_onlyAt (by omega)
    · refine ⟨Nat.lt_of_le_of_lt hdir hshort, ?_, ?_, h.basename_noSlash, h.joins dir name⟩
      · show path.len - cut - 1 < kOpenHeFSFileNameLen
        omega
      · rw [h.basename_chars, ne_eq, List.map_eq_nil_iff, List.range_eq_nil]
        omega

/-- `"//a"`. -/
def twoSlashes : CString where
  bytes i := [0x2F, 0x2F, 0x61].getD i 0
  len := 3
  noNul := by decide
  nul := rfl

/-- Its directory is the root, and the root and the name are another path. -/
theorem twoSlashes_not_joined :
    ¬ SplitRight twoSlashes zeros zeros fun d => if d.chars = [kSlash] then [] else [kSlash] := by
  intro h
  have hrun : (Detail.hefsSplitPath (some twoSlashes) zeros zeros).1 = true ∧
      (Detail.hefsSplitPath (some twoSlashes) zeros zeros).2.1 0 = kSlash ∧
      (Detail.hefsSplitPath (some twoSlashes) zeros zeros).2.1 1 = 0 := by decide +kernel
  obtain ⟨d, n, hd, -, -, hhalves⟩ := h.halves hrun.1
  rw [hd] at hrun
  have hslash : d.bytes 0 = kSlash := hrun.2.1
  have hend : d.bytes 1 = 0 := hrun.2.2
  have hlen : d.len = 1 := by
    have hshort : ¬ 1 < d.len := fun hlt => d.noNul 1 hlt hend
    have hsome : d.len ≠ 0 := by
      intro hzero
      have hnul := d.nul
      rw [hzero, hslash] at hnul
      cases hnul
    omega
  have hroot : d.chars = [kSlash] := by
    rw [CString.chars, hlen, List.range_one, List.map_singleton, hslash]
  have hjoined := hhalves.joined
  rw [if_pos hroot, hroot] at hjoined
  have hname : n.chars = [kSlash, 0x61] := List.cons.inj hjoined |>.2
  exact hhalves.noSlash (by rw [hname]; exact List.mem_cons_self)

end NeKernel.FS
