import NeKernel.HALKit.PageTables

/-!
# Walking the tables

What `mm_walk_page` does to the tree. A level either follows an entry, or hangs a fresh table under
it: an empty one where nothing was mapped, and one of 512 pages where a large page was. What a word
says of the pages below it is a parameter: a rule that reads nothing from an absent entry and the
same from a large page as from the entries it is split into (`LeafRule`). Every level keeps what the
rule reads of every page (`walkLevel_same`), so a walk does too, wherever it stops
(`walkLevels_same`); and a walk that reaches the end stands at the page table of the address.
-/

namespace NeKernel.HALKit

open ByteStore

variable {m m' : Store} {p : Phys} {root t u f d va shift : Nat} {q : List Idx} {i j : Idx}
  {fs : List Nat} {alloc : Bool} {β : Type*} {ℓ : Nat → List Idx → Option β}

/-! ## Frames -/

/-- The answers the allocator still has: frames that are no table yet, each given once, and `0`. -/
structure FreshAnswers (m : Store) (root : Nat) (fs : List Nat) : Prop where
  fresh : ∀ f ∈ fs, f ≠ 0 → FreshFrame m root f
  once : fs.Pairwise fun f g => f = 0 ∨ f ≠ g

theorem FreshAnswers.tail (h : FreshAnswers m root (f :: fs)) : FreshAnswers m root fs :=
  ⟨fun g hg => h.fresh g (List.mem_cons_of_mem _ hg), (List.pairwise_cons.mp h.once).2⟩

/-- Answers stay fresh when the tables stay. -/
theorem FreshAnswers.congr (h : FreshAnswers m root fs)
    (htables : ∀ q, q.length ≤ 3 → tableAt m' root q = tableAt m root q) :
    FreshAnswers m' root fs := by
  refine ⟨fun f hf hne => ⟨(h.fresh f hf hne).toTableFrame, fun q hq => ?_⟩, h.once⟩
  rw [htables q hq]
  exact (h.fresh f hf hne).unused q hq

/-- The answers behind a frame that became a table stay fresh. -/
theorem Install.answers {m m' : Store} {p : List Idx} (hI : Install m m' root p i t f)
    (h : FreshAnswers m root (f :: fs)) : FreshAnswers m' root fs := by
  obtain ⟨honce, hrest⟩ := List.pairwise_cons.mp h.once
  refine ⟨fun g hg hne => hI.freshFrame (h.fresh g (List.mem_cons_of_mem _ hg) hne) ?_, hrest⟩
  rintro rfl
  exact (honce g hg).elim (fun h0 => hne h0) fun hgg => hgg rfl

/-- An allocation: no frame, and nothing but the answer is gone; or the first answer, zeroed. -/
theorem nextFrame_cases (hA : FreshAnswers p.mem root p.answers) :
    (∃ fs, nextFrame p = (0, ⟨p.mem, fs⟩) ∧ FreshAnswers p.mem root fs) ∨
    ∃ f fs, f ≠ 0 ∧ FreshFrame p.mem root f ∧ FreshAnswers p.mem root (f :: fs) ∧
      nextFrame p = (f, ⟨fill p.mem f kPageSize 0, fs⟩) := by
  obtain ⟨m, fs⟩ := p
  cases fs with
  | nil => exact .inl ⟨[], rfl, hA⟩
  | cons f fs =>
      by_cases hf : f = 0
      · subst hf
        exact .inl ⟨fs, rfl, hA.tail⟩
      · refine .inr ⟨f, fs, hf, hA.fresh f List.mem_cons_self hf, hA, ?_⟩
        simp only [nextFrame, if_neg hf]

/-- The frame that was given was the first answer. -/
theorem answers_of_nextFrame {as fs : List Nat} {mem : Store} (hf0 : f ≠ 0)
    (hnext : nextFrame ⟨m, as⟩ = (f, ⟨mem, fs⟩)) : as = f :: fs := by
  cases as with
  | nil => exact absurd (Prod.mk.inj hnext).1.symm hf0
  | cons g gs =>
      by_cases hg : g = 0
      · simp only [nextFrame, if_pos hg, Prod.mk.injEq] at hnext
        exact absurd hnext.1.symm hf0
      · simp only [nextFrame, if_neg hg, Prod.mk.injEq, Phys.mk.injEq] at hnext
        obtain ⟨rfl, -, rfl⟩ := hnext
        rfl

/-- A cell of a table lies outside every fresh frame. -/
theorem FreshFrame.cell_outside (hf : FreshFrame m root f) (hS : Tree d m root)
    (ht : tableAt m root q = some t) (hq : q.length ≤ 3) (i : Idx) :
    t + 8 * i + 8 ≤ f ∨ f + 4096 ≤ t + 8 * i := by
  have hi : (i : Nat) < 512 := i.isLt
  have := (hS.frame q t hq ht).apart hf.toTableFrame fun h => hf.unused q hq (h ▸ ht)
  omega

/-! ## One level -/

/-- The entries of a large page keep its bits above the address of the page, and have the number of
their own part where the page had zeroes. -/
theorem splitEntry_eq {e n : Nat} (he : e < 2 ^ 64) (hn : n ≤ 64) (i : Idx) :
    splitEntry e n i = (e - e % 2 ^ n + i * (2 ^ n) >>> 9) |||
      ((e &&& 0x1F) ||| (e &&& 0x100) ||| (e &&& 1 <<< 63)) |||
        (if n > 21 then kPageSizeBit else 0) := by
  have hmask : 2 ^ 64 - 2 ^ n = (2 ^ (64 - n) - 1) <<< n := by
    rw [Nat.shiftLeft_eq, Nat.sub_mul, ← Nat.pow_add, Nat.one_mul, Nat.sub_add_cancel hn]
  have hbase : e &&& (2 ^ 64 - 2 ^ n) = e - e % 2 ^ n := by
    rw [hmask, BitMask.and_high (by rwa [Nat.add_sub_cancel' hn])]
  simp only [splitEntry, hbase]

/-- A part of a large page is mapped, as a large page again where the page was of a GiB. -/
theorem splitEntry_spec {e n : Nat} (he : e < 2 ^ 64) (hp : Present e) (hn : n = 21 ∨ n = 30)
    (i : Idx) :
    splitEntry e n i < 2 ^ 64 ∧ Present (splitEntry e n i) ∧
      (n = 30 → Large (splitEntry e n i)) := by
  have hi : (i : Nat) < 512 := i.isLt
  rw [splitEntry_eq he (by omega)]
  refine ⟨?_, ?_, ?_⟩
  · have h₁ : e &&& 0x1F < 2 ^ 64 := Nat.lt_of_le_of_lt Nat.and_le_left he
    have h₂ : e &&& 0x100 < 2 ^ 64 := Nat.lt_of_le_of_lt Nat.and_le_left he
    have h₃ : e &&& 1 <<< 63 < 2 ^ 64 := Nat.lt_of_le_of_lt Nat.and_le_left he
    have hsize : (if n > 21 then kPageSizeBit else 0) < 2 ^ 64 := by
      split <;> decide
    apply Nat.or_lt_two_pow (Nat.or_lt_two_pow ?_ (Nat.or_lt_two_pow (Nat.or_lt_two_pow h₁ h₂) h₃))
      hsize
    rcases hn with rfl | rfl <;> simp only [Nat.shiftRight_eq_div_pow] <;> omega
  · have hpres : e &&& 1 ≠ 0 := fun h => and_one_eq_zero.mp h hp
    have hc : (0x1F &&& 1 : Nat) = 1 := rfl
    by_contra hn'
    rw [← and_one_eq_zero] at hn'
    simp only [Nat.and_or_distrib_right, Nat.or_eq_zero_iff, Nat.and_assoc, hc] at hn'
    exact hpres hn'.1.2.1.1
  · rintro rfl
    rw [← and_pageSizeBit, Nat.and_or_distrib_right, if_pos (by decide), Nat.and_self]
    intro h
    exact absurd (Nat.or_eq_zero_iff.mp h).2 (by decide)

/-- A part of a large page of 2 MiB is the frame at its place in the page. -/
theorem frameBits_splitEntry {e : Nat} (he : e < 2 ^ 64) (i : Idx) :
    frameBits (splitEntry e 21 i) = largeBits e + i * 4096 := by
  have hi : (i : Nat) < 512 := i.isLt
  have hstep : (2 ^ 21) >>> 9 = 4096 := by decide
  have hc₁ : 0x1F &&& kAddrMask = 0 := rfl
  have hc₂ : 0x100 &&& kAddrMask = 0 := rfl
  have hc₃ : 1 <<< 63 &&& kAddrMask = 0 := rfl
  rw [splitEntry_eq he (by decide), hstep, if_neg (by decide), Nat.or_zero, ← and_addrMask,
    Nat.and_or_distrib_right, Nat.and_or_distrib_right, Nat.and_or_distrib_right, Nat.and_assoc,
    Nat.and_assoc, Nat.and_assoc, hc₁, hc₂, hc₃, Nat.and_zero, Nat.or_zero, Nat.or_zero,
    Nat.or_zero, and_addrMask, frameBits, largeBits]
  omega

/-- A way to read an entry, with the indices below it, that a walk cannot disturb. Large pages stand
in tables deeper than `d`. -/
structure LeafRule (d : Nat) (ℓ : Nat → List Idx → Option β) : Prop where
  absent : ∀ e is, ¬ Present e → ℓ e is = none
  split : ∀ e (j : Idx) is, e < 2 ^ 64 → Present e → Large e → is.length + d ≤ 1 →
    ℓ (splitEntry e (21 + 9 * is.length) j) is = ℓ e (j :: is)

/-- The frames of pages are read by such a rule. -/
theorem leafRule_leafOf : LeafRule 1 leafOf where
  absent := by
    intro e is h
    unfold leafOf
    exact if_neg h
  split := by
    intro e j is he hp hl hd
    obtain rfl : is = [] := List.eq_nil_of_length_eq_zero (by omega)
    have hpres := (splitEntry_spec he hp (.inl rfl) j).2.1
    show leafOf (splitEntry e 21 j) [] = _
    rw [leafOf, if_pos hpres, leafOf, if_pos hp]
    simp only [if_pos hl, frameBits_splitEntry he]

theorem entry_lt : entry m t i < 2 ^ 64 := getLE_lt

/-- A frame with permission bits fits a word. -/
theorem TableFrame.or_lt (hf : TableFrame f) {perm : Nat} (hp : perm < 128) :
    f ||| perm < 2 ^ 64 := by
  have := hf.bound
  rw [(frame_or hf.aligned hp).1]
  omega

/-- Writing the entry `i` of the table at `q` leaves the entries of a fresh frame alone. -/
theorem FreshFrame.entry_putLE (hf : FreshFrame m root f) (hS : Tree d m root)
    (ht : tableAt m root q = some t) (hq : q.length ≤ 3) {mem : Store} {w : Nat} :
    entry (putLE mem (t + 8 * i) 8 w) f j = entry mem f j := by
  have hj : (j : Nat) < 512 := j.isLt
  have := hf.cell_outside hS ht hq i
  exact getLE_putLE_of_disjoint (by omega)

theorem entry_fill_zero : entry (fill m f kPageSize 0) f j = 0 := by
  have hj : (j : Nat) < 512 := j.isLt
  exact getLE_fill_zero_inside (by omega) (by simp only [kPageSize]; omega)

/-- An empty table under an entry that was not present. -/
theorem Tree.install_empty (hd : d ≤ 1) (hR : LeafRule d ℓ) (hS : Tree d m root)
    (ht : tableAt m root q = some t) (hq : q.length ≤ 2) (habs : ¬ Present (entry m t i))
    (hf : FreshFrame m root f) {perm : Nat} (hperm : perm < 128) (hodd : perm % 2 = 1) :
    Install m (putLE (fill m f kPageSize 0) (t + 8 * i) 8 (f ||| perm)) root q i t f ∧
      Same d ℓ m (putLE (fill m f kPageSize 0) (t + 8 * i) 8 (f ||| perm)) root := by
  have hzero : ∀ j, entry (putLE (fill m f kPageSize 0) (t + 8 * i) 8 (f ||| perm)) f j = 0 := by
    intro j
    rw [hf.entry_putLE hS ht (by omega), entry_fill_zero]
  have habs' : ∀ j, ¬ Present
      (entry (putLE (fill m f kPageSize 0) (t + 8 * i) 8 (f ||| perm)) f j) := by
    intro j
    rw [hzero]
    decide
  have hI : Install m (putLE (fill m f kPageSize 0) (t + 8 * i) 8 (f ||| perm)) root q i t f := by
    refine hS.install ht hq (child_absent habs) hf ?_ (entry_putLE_same (hf.or_lt hperm)) hperm
      hodd (fun _ j => child_absent (habs' j)) (fun _ j hp => absurd hp (habs' j))
    intro x hx₁ hx₂
    rw [putLE_apply_of_notMem hx₁]
    exact blit_apply_of_notMem hx₂
  refine ⟨hI, hI.tree hd hS, fun js hjs => ?_⟩
  rcases hI.follow_cases ℓ hjs with heq | ⟨is, -, hnew, hold⟩
  · exact heq
  · rw [hnew, hold, hR.absent _ _ habs, follow_zero hzero fun is => hR.absent 0 is (by decide)]

theorem Shape.install_empty (hS : Shape m root) (ht : tableAt m root q = some t) (hq : q.length ≤ 2)
    (habs : ¬ Present (entry m t i)) (hf : FreshFrame m root f) {perm : Nat} (hperm : perm < 128)
    (hodd : perm % 2 = 1) :
    Install m (putLE (fill m f kPageSize 0) (t + 8 * i) 8 (f ||| perm)) root q i t f ∧
      Kept m (putLE (fill m f kPageSize 0) (t + 8 * i) 8 (f ||| perm)) root := by
  obtain ⟨hI, hK⟩ := hS.tree.install_empty (Nat.le_refl 1) leafRule_leafOf ht hq habs hf hperm hodd
  exact ⟨hI, hK.kept⟩

/-- A table of 512 pages in the place of a large page. -/
theorem Tree.install_split (hd : d ≤ 1) (hR : LeafRule d ℓ) (hS : Tree d m root)
    (ht : tableAt m root q = some t) (hdq : d < q.length) (hq : q.length ≤ 2)
    (hshift : shift = 39 - 9 * q.length) (hpres : Present (entry m t i))
    (hlarge : Large (entry m t i)) (hf : FreshFrame m root f) {mem : Store}
    (hmem : OnlyAt m mem f kPageSize) :
    Install m (putLE (putWords mem f 8 (splitEntry (entry m t i) shift) kEntries) (t + 8 * i) 8
        (f ||| kTablePerm)) root q i t f ∧
      Same d ℓ m (putLE (putWords mem f 8 (splitEntry (entry m t i) shift) kEntries) (t + 8 * i) 8
        (f ||| kTablePerm)) root := by
  have hn : shift = 21 ∨ shift = 30 := by omega
  have he : ∀ j, entry (putLE (putWords mem f 8 (splitEntry (entry m t i) shift) kEntries)
      (t + 8 * i) 8 (f ||| kTablePerm)) f j = splitEntry (entry m t i) shift j := by
    intro j
    have hj : (j : Nat) < kEntries := j.isLt
    rw [hf.entry_putLE hS ht (by omega), entry, getLE_putWords hj]
    exact Nat.mod_eq_of_lt (splitEntry_spec entry_lt hpres hn j).1
  -- a directory of large pages has no tables below it
  have hbelow : q.length ≤ 1 → ∀ j, child (putLE (putWords mem f 8
      (splitEntry (entry m t i) shift) kEntries) (t + 8 * i) 8 (f ||| kTablePerm)) f j = none := by
    intro hq1 j
    apply child_large
    rw [he]
    exact (splitEntry_spec entry_lt hpres hn j).2.2 (by omega)
  have hI : Install m (putLE (putWords mem f 8 (splitEntry (entry m t i) shift) kEntries)
      (t + 8 * i) 8 (f ||| kTablePerm)) root q i t f := by
    refine hS.install ht (by omega) (child_large hlarge) hf ?_
      (entry_putLE_same (hf.or_lt (by decide))) (by decide) (by decide) hbelow
      (fun h => absurd h (by omega))
    intro x hx₁ hx₂
    rw [putLE_apply_of_notMem hx₁, onlyAt_putWords x (by simpa only [kEntries] using hx₂)]
    exact hmem x hx₂
  refine ⟨hI, hI.tree hd hS, fun js hjs => ?_⟩
  rcases hI.follow_cases ℓ hjs with heq | ⟨is, rfl, hnew, hold⟩
  · exact heq
  · have hlen : is.length = 3 - q.length := by
      simp only [List.length_append, List.length_reverse, List.length_cons] at hjs
      omega
    obtain ⟨j, is, rfl⟩ : ∃ j is', is = j :: is' := List.exists_cons_of_length_pos (by omega)
    rw [List.length_cons] at hlen
    obtain rfl : shift = 21 + 9 * is.length := by omega
    rw [hnew, hold, ← hR.split _ _ _ entry_lt hpres hlarge (by omega), ← he j]
    by_cases his : is = []
    · rw [his]
      exact follow_single
    · have hpos : 0 < is.length := List.length_pos_of_ne_nil his
      exact follow_leaf (hbelow (by omega) j)

/-- An entry that leads to no table is not present or large. -/
theorem child_eq_none (hc : child m t i = none) :
    ¬ Present (entry m t i) ∨ Present (entry m t i) ∧ Large (entry m t i) := by
  by_cases hp : Present (entry m t i)
  · refine .inr ⟨hp, ?_⟩
    by_contra hl
    rw [child, if_pos ⟨hp, hl⟩] at hc
    cases hc
  · exact .inl hp

theorem nextFrame_cons (hf0 : f ≠ 0) {X : List Nat} :
    nextFrame ⟨m, f :: X⟩ = (f, ⟨fill m f kPageSize 0, X⟩) := if_neg hf0

/-- The table that an entry leads to once it holds a frame with permissions. -/
theorem TableFrame.read (hf : TableFrame f) {mem : Store} (he : entry mem t i = f ||| kTablePerm) :
    getLE mem (t + 8 * i) 8 &&& kTableMask = f := by
  have hw : getLE mem (t + 8 * i) 8 = f ||| kTablePerm := he
  rw [hw, and_tableMask (hf.or_lt (by decide)), (frame_or hf.aligned (by decide)).2.1]

/-- **A level that follows an entry** makes the entry permissive and takes no frame. -/
theorem Tree.walkLevel_follow (ℓ : Nat → List Idx → Option β) (shift : Nat) (alloc : Bool)
    (hd : d ≤ 1) (hS : Tree d m root) (ht : tableAt m root q = some t) (hq : q.length ≤ 2)
    (hc : child m t i = some u) :
    ∃ m', (∀ X, walkLevel ⟨m, X⟩ (t + 8 * i) shift alloc = (some u, ⟨m', X⟩)) ∧
      Same d ℓ m m' root ∧ (∀ q', q'.length ≤ 3 → tableAt m' root q' = tableAt m root q') ∧
      OnlyAt m m' (t + 8 * i) 8 := by
  obtain ⟨⟨hpres, hsmall⟩, hu⟩ : (Present (entry m t i) ∧ ¬ Large (entry m t i)) ∧
      tableBits (entry m t i) = u := by
    unfold child at hc
    split at hc
    · next h => exact ⟨h, Option.some.inj hc⟩
    · cases hc
  have hor : entry m t i ||| kTablePerm = entry m t i - entry m t i % 8 + 7 := BitMask.or_low _ 3
  have hlt : entry m t i < 2 ^ 64 := entry_lt
  have hnew : entry (putLE m (t + 8 * i) 8 (entry m t i ||| kTablePerm)) t i =
      entry m t i ||| kTablePerm := entry_putLE_same (by rw [hor]; omega)
  have hbits : tableBits (entry m t i ||| kTablePerm) = u := by
    rw [← hu, hor, tableBits, tableBits]
    omega
  have hc' : child (putLE m (t + 8 * i) 8 (entry m t i ||| kTablePerm)) t i = some u := by
    rw [child, hnew, if_pos, hbits]
    rw [hor]
    simp only [Present, Large] at hsmall ⊢
    omega
  obtain ⟨hK, htables⟩ := (hS.onlyEntry_put ht (by omega)).keep (by omega) hS ht hq hc hc'
  refine ⟨_, fun X => ?_, hK ℓ, htables, OnlyAt.putLE (Nat.le_refl _) (Nat.le_refl _)⟩
  have hentry : getLE m (t + 8 * i) 8 = entry m t i := rfl
  have hw : getLE (putLE m (t + 8 * i) 8 (entry m t i ||| kTablePerm)) (t + 8 * i) 8 =
      entry m t i ||| kTablePerm := hnew
  simp only [walkLevel, hentry]
  rw [if_neg fun h => and_one_eq_zero.mp h hpres, if_neg fun h => hsmall (and_pageSizeBit.mp h), hw,
    and_tableMask (by rw [hor]; omega), hbits]

theorem walkLevel_follow (shift : Nat) (alloc : Bool) (hS : Shape m root)
    (ht : tableAt m root q = some t) (hq : q.length ≤ 2) (hc : child m t i = some u) :
    ∃ m', (∀ X, walkLevel ⟨m, X⟩ (t + 8 * i) shift alloc = (some u, ⟨m', X⟩)) ∧
      Kept m m' root ∧ (∀ q', q'.length ≤ 3 → tableAt m' root q' = tableAt m root q') ∧
      OnlyAt m m' (t + 8 * i) 8 := by
  obtain ⟨m', hwalk, hK, hrest⟩ :=
    hS.tree.walkLevel_follow leafOf shift alloc (Nat.le_refl 1) ht hq hc
  exact ⟨m', hwalk, hK.kept, hrest⟩

/-- **A level that hangs a table in** takes one frame, whatever the answers behind it. -/
theorem Tree.walkLevel_hang (hd : d ≤ 1) (hR : LeafRule d ℓ) (hS : Tree d m root)
    (ht : tableAt m root q = some t) (hq : q.length ≤ 2)
    (hshift : d < q.length → shift = 39 - 9 * q.length) (hc : child m t i = none)
    (hf0 : f ≠ 0) (hf : FreshFrame m root f) :
    ∃ m', (∀ X, walkLevel ⟨m, f :: X⟩ (t + 8 * i) shift true = (some f, ⟨m', X⟩)) ∧
      Install m m' root q i t f ∧ Same d ℓ m m' root ∧
      ∀ x, x < t + 8 * i ∨ t + 8 * i + 8 ≤ x → x < f ∨ f + 4096 ≤ x → m' x = m x := by
  have hentry : getLE m (t + 8 * i) 8 = entry m t i := rfl
  have hread : ∀ mem, getLE (putLE mem (t + 8 * i) 8 (f ||| kTablePerm)) (t + 8 * i) 8 &&&
      kTableMask = f := fun mem => hf.toTableFrame.read (entry_putLE_same (hf.or_lt (by decide)))
  rcases child_eq_none hc with habs | ⟨hpres, hlarge⟩
  · obtain ⟨hI, hK⟩ := hS.install_empty hd hR ht hq habs hf (show kTablePerm < 128 by decide)
      (by decide)
    refine ⟨_, fun X => ?_, hI, hK, fun x hx₁ hx₂ => ?_⟩
    · simp only [walkLevel, hentry]
      rw [if_pos (and_one_eq_zero.mpr habs), if_neg (by decide), nextFrame_cons hf0, if_neg hf0,
        hread]
    · rw [putLE_apply_of_notMem hx₁]
      exact blit_apply_of_notMem hx₂
  · have hdq : d < q.length := by
      by_contra hle
      exact hS.small q t i (by omega) ht hpres hlarge
    -- the entry is read again, outside the frame that was just zeroed
    have hout := hf.cell_outside hS ht (by omega) i
    have hsame : getLE (fill m f kPageSize 0) (t + 8 * i) 8 = entry m t i :=
      getLE_blit_of_disjoint (by simp only [kPageSize]; omega)
    have hfill : OnlyAt m (fill m f kPageSize 0) f kPageSize :=
      OnlyAt.blit (Nat.le_refl _) (Nat.le_refl _)
    obtain ⟨hI, hK⟩ := hS.install_split hd hR ht hdq hq (hshift hdq) hpres hlarge hf hfill
    refine ⟨_, fun X => ?_, hI, hK, fun x hx₁ hx₂ => ?_⟩
    · simp only [walkLevel, hentry]
      rw [if_neg fun h => and_one_eq_zero.mp h hpres, if_pos (and_pageSizeBit.mpr hlarge),
        if_neg (by decide), nextFrame_cons hf0, if_neg hf0, hsame, hread]
    · rw [putLE_apply_of_notMem hx₁, onlyAt_putWords x (by simpa only [kEntries] using hx₂)]
      exact hfill x hx₂

theorem walkLevel_hang (hS : Shape m root) (ht : tableAt m root q = some t)
    (hq : q.length ≤ 2) (hshift : q.length = 2 → shift = 21) (hc : child m t i = none)
    (hf0 : f ≠ 0) (hf : FreshFrame m root f) :
    ∃ m', (∀ X, walkLevel ⟨m, f :: X⟩ (t + 8 * i) shift true = (some f, ⟨m', X⟩)) ∧
      Install m m' root q i t f ∧ Kept m m' root ∧
      ∀ x, x < t + 8 * i ∨ t + 8 * i + 8 ≤ x → x < f ∨ f + 4096 ≤ x → m' x = m x := by
  have hshift' : 1 < q.length → shift = 39 - 9 * q.length := by
    intro h
    have := hshift (by omega)
    omega
  obtain ⟨m', hwalk, hI, hK, hrest⟩ :=
    hS.tree.walkLevel_hang (Nat.le_refl 1) leafRule_leafOf ht hq hshift' hc hf0 hf
  exact ⟨m', hwalk, hI, hK.kept, hrest⟩

/-- A level stops where there is no table and it may not allocate one. -/
theorem walkLevel_noAlloc (hc : child p.mem t i = none) :
    walkLevel p (t + 8 * i) shift false = (none, p) := by
  have hentry : getLE p.mem (t + 8 * i) 8 = entry p.mem t i := rfl
  simp only [walkLevel, hentry]
  rcases child_eq_none hc with habs | ⟨hpres, hlarge⟩
  · rw [if_pos (and_one_eq_zero.mpr habs), if_pos trivial]
  · rw [if_neg fun h => and_one_eq_zero.mp h hpres, if_pos (and_pageSizeBit.mpr hlarge),
      if_pos trivial]

/-- A level stops where there is no table and no frame for one. -/
theorem walkLevel_noFrame (hc : child p.mem t i = none) (h0 : (nextFrame p).1 = 0) :
    walkLevel p (t + 8 * i) shift true = (none, (nextFrame p).2) := by
  have hentry : getLE p.mem (t + 8 * i) 8 = entry p.mem t i := rfl
  simp only [walkLevel, hentry]
  rcases child_eq_none hc with habs | ⟨hpres, hlarge⟩
  · rw [if_pos (and_one_eq_zero.mpr habs), if_neg (by decide), if_pos h0]
  · rw [if_neg fun h => and_one_eq_zero.mp h hpres, if_pos (and_pageSizeBit.mpr hlarge),
      if_neg (by decide), if_pos h0]

/-- **One level of a walk keeps every page**, and leads to the table below the entry. -/
theorem Tree.walkLevel_same (alloc : Bool) (hd : d ≤ 1) (hR : LeafRule d ℓ)
    (hS : Tree d p.mem root) (ht : tableAt p.mem root q = some t) (hq : q.length ≤ 2)
    (hshift : d < q.length → shift = 39 - 9 * q.length)
    (hA : FreshAnswers p.mem root p.answers) {r : Option Nat × Phys}
    (hr : walkLevel p (t + 8 * i) shift alloc = r) :
    Same d ℓ p.mem r.2.mem root ∧ FreshAnswers r.2.mem root r.2.answers ∧
      ∀ u, r.1 = some u → tableAt r.2.mem root (i :: q) = some u := by
  have hsame : Same d ℓ p.mem p.mem root := ⟨hS, fun _ _ => rfl⟩
  obtain ⟨m, as⟩ := p
  subst hr
  cases hc : child m t i with
  | some u =>
      obtain ⟨m', hwalk, hK, htables, -⟩ := hS.walkLevel_follow ℓ shift alloc hd ht hq hc
      rw [hwalk]
      refine ⟨hK, hA.congr htables, fun v hv => ?_⟩
      cases hv
      rw [htables _ (by rw [List.length_cons]; omega), tableAt_cons ht, hc]
  | none =>
      cases alloc with
      | false =>
          rw [walkLevel_noAlloc (p := ⟨m, as⟩) hc]
          exact ⟨hsame, hA, fun u hu => by cases hu⟩
      | true =>
          rcases nextFrame_cases hA with ⟨fs, hnext, hA'⟩ | ⟨f, fs, hf0, hf, hA', hnext⟩
          · rw [walkLevel_noFrame (p := ⟨m, as⟩) hc (by rw [hnext]), hnext]
            exact ⟨hsame, hA', fun u hu => by cases hu⟩
          · obtain ⟨m', hwalk, hI, hK, -⟩ := hS.walkLevel_hang hd hR ht hq hshift hc hf0 hf
            obtain rfl : as = f :: fs := answers_of_nextFrame hf0 hnext
            rw [hwalk]
            refine ⟨hK, hI.answers hA', fun v hv => ?_⟩
            cases hv
            exact hI.installed

theorem walkLevel_spec (alloc : Bool) (hS : Shape p.mem root) (ht : tableAt p.mem root q = some t)
    (hq : q.length ≤ 2) (hshift : q.length = 2 → shift = 21)
    (hA : FreshAnswers p.mem root p.answers) {r : Option Nat × Phys}
    (hr : walkLevel p (t + 8 * i) shift alloc = r) :
    Kept p.mem r.2.mem root ∧ FreshAnswers r.2.mem root r.2.answers ∧
      ∀ u, r.1 = some u → tableAt r.2.mem root (i :: q) = some u := by
  have hshift' : 1 < q.length → shift = 39 - 9 * q.length := by
    intro h
    have := hshift (by omega)
    omega
  obtain ⟨hK, hrest⟩ :=
    hS.tree.walkLevel_same alloc (Nat.le_refl 1) leafRule_leafOf ht hq hshift' hA hr
  exact ⟨hK.kept, hrest⟩

/-! ## The whole walk -/

/-- The index a shift selects for an address. -/
def idx (va shift : Nat) : Idx :=
  ⟨(va >>> shift) &&& kMask9, Nat.lt_of_le_of_lt Nat.and_le_right (by decide)⟩

theorem cell_eq : cell t va shift = t + 8 * idx va shift := rfl

/-- The shift of a level, by the tables above it. -/
theorem walkShift_eq {shifts : List Nat} (hsuf : shift :: shifts <:+ walkShifts) {n : Nat}
    (hlen : n + shifts.length = 2) : shift = 39 - 9 * n := by
  obtain ⟨pre, hpre⟩ := hsuf
  have hpos : pre.length = n := by
    have := congrArg List.length hpre
    simp only [List.length_append, List.length_cons, walkShifts, List.length_nil] at this
    omega
  rcases pre with _ | ⟨a, _ | ⟨b, _ | ⟨c, pre⟩⟩⟩ <;>
    simp [walkShifts] at hpre hpos <;> omega

/-- **A walk keeps every page**, wherever it stops; one that reaches the end stands at the table of
the indices it used. -/
theorem Tree.walkLevels_same (va : Nat) (alloc : Bool) (hd : d ≤ 1) (hR : LeafRule d ℓ)
    {shifts : List Nat} (hsuf : shifts <:+ walkShifts) (hlen : q.length + shifts.length = 3)
    (hS : Tree d p.mem root) (ht : tableAt p.mem root q = some t)
    (hA : FreshAnswers p.mem root p.answers) {r : Option Nat × Phys}
    (hr : walkLevels va alloc shifts p t = r) :
    Same d ℓ p.mem r.2.mem root ∧ FreshAnswers r.2.mem root r.2.answers ∧
      ∀ u, r.1 = some u →
        tableAt r.2.mem root ((shifts.map (idx va)).reverse ++ q) = some u := by
  induction shifts generalizing p t q with
  | nil =>
      subst hr
      refine ⟨⟨hS, fun _ _ => rfl⟩, hA, fun u hu => ?_⟩
      cases hu
      exact ht
  | cons shift shifts ih =>
      rw [List.length_cons] at hlen
      obtain ⟨hK, hA', hnext⟩ := hS.walkLevel_same (i := idx va shift) alloc hd hR ht (by omega)
        (fun _ => walkShift_eq hsuf (by omega)) hA rfl
      unfold walkLevels at hr
      rw [cell_eq] at hr
      rcases hlev : walkLevel p (t + 8 * idx va shift) shift alloc with ⟨_ | u, p'⟩
      · rw [hlev] at hr hK hA'
        subst hr
        exact ⟨hK, hA', fun u hu => by cases hu⟩
      · rw [hlev] at hr hK hA' hnext
        have hsuf' : shifts <:+ walkShifts := (List.suffix_cons shift shifts).trans hsuf
        obtain ⟨hK', hA'', hlast⟩ := ih hsuf' (by rw [List.length_cons]; omega) hK.tree
          (hnext u rfl) hA' hr
        refine ⟨hK.trans hK', hA'', fun v hv => ?_⟩
        rw [List.map_cons, List.reverse_cons, List.append_assoc, List.singleton_append]
        exact hlast v hv

/-- The path of the page table of an address. -/
def pagePath (va : Nat) : List Idx := [idx va 21, idx va 30, idx va 39]

theorem TableFrame.and_mask (h : TableFrame t) : t &&& kTableMask = t := by
  have h₁ := h.bound
  have h₂ := h.aligned
  rw [and_tableMask (by omega), tableBits]
  omega

/-- **`mm_walk_page` keeps every page**; the slot it returns is the entry of the address in its page
table. -/
theorem mmWalkPage_spec (va : Nat) (alloc : Bool) (hS : Shape p.mem root)
    (hA : FreshAnswers p.mem root p.answers) {r : Option Nat × Phys}
    (hr : mmWalkPage p root va alloc = r) :
    Kept p.mem r.2.mem root ∧ FreshAnswers r.2.mem root r.2.answers ∧
      ∀ slot, r.1 = some slot → ∃ pt, slot = pt + 8 * idx va 12 ∧
        tableAt r.2.mem root (pagePath va) = some pt := by
  have hroot := hS.frame [] root (by simp) rfl
  rw [mmWalkPage, if_neg hroot.ne_zero, hroot.and_mask] at hr
  subst hr
  obtain ⟨hK, hA', hlast⟩ := hS.tree.walkLevels_same va alloc (Nat.le_refl 1) leafRule_leafOf
    (q := []) List.suffix_rfl rfl rfl hA rfl
  refine ⟨hK.kept, hA', fun slot hslot => ?_⟩
  obtain ⟨pt, hpt, rfl⟩ := Option.map_eq_some_iff.mp hslot
  exact ⟨pt, cell_eq, hlast pt hpt⟩

end NeKernel.HALKit
