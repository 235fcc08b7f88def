import NeKernel.HALKit.PageMap

/-!
# Walks through large pages

A tree may map pages of 1 GiB, of 2 MiB and of 4 KiB, with any attributes: large pages stand below
the root's entries (`Tree 0`). A walk that allocates splits a large page into 512 parts, and the
parts again. The address of a page and the attributes of its leaf are read by a rule that a split
does not disturb (`leafRule_seen`), so a walk shows the same pages before and after, wherever it
stops (`mmWalkPage_transparent`).
-/

namespace NeKernel.HALKit

open ByteStore

variable {m : Store} {p : Phys} {root va e k : Nat} {i j : Idx} {is : List Idx}

/-! ## What a leaf says -/

/-- The bits of a leaf that say how its page may be used: present, write, user, write through, cache
disable, global and no execute. -/
def kLeafAttrs : Nat := 0x1F ||| 0x100 ||| 1 <<< 63

/-- The address in a leaf with `k` levels below it. -/
def pageBits (k e : Nat) : Nat := e / 2 ^ (12 + 9 * k) % 2 ^ (40 - 9 * k) * 2 ^ (12 + 9 * k)

/-- The number of the page that the indices below a leaf name. -/
def partOf : List Idx → Nat
  | [] => 0
  | i :: is => i * 512 ^ is.length + partOf is

/-- What a word shows of a page as the leaf above the indices `is`: its frame and its attributes. -/
def seen (e : Nat) (is : List Idx) : Option (Nat × Nat) :=
  if Present e then some (pageBits is.length e + partOf is * 4096, e &&& kLeafAttrs) else none

/-- The frame and the attributes of the leaf that maps an address. -/
def seenAt (m : Store) (root va : Nat) : Option (Nat × Nat) :=
  follow seen m (root &&& kTableMask) (pageIdx va)

/-- The attributes of the leaf that maps an address. -/
def leafAttrs (m : Store) (root va : Nat) : Option Nat := (seenAt m root va).map Prod.snd

theorem seen_present (h : Present e) :
    seen e is = some (pageBits is.length e + partOf is * 4096, e &&& kLeafAttrs) := if_pos h

theorem seen_absent (h : ¬ Present e) : seen e is = none := if_neg h

/-! ## Splitting -/

/-- The parts of a large page are where they were in the page. -/
theorem pageBits_splitEntry (he : e < 2 ^ 64) (hk : k ≤ 1) (j : Idx) :
    pageBits k (splitEntry e (21 + 9 * k) j) = pageBits (k + 1) e + j * 2 ^ (12 + 9 * k) := by
  have hj : (j : Nat) < 512 := j.isLt
  rw [splitEntry_eq he (by omega), pageBits, ← BitMask.and_mask]
  -- neither the attributes nor the size bit reach into the address
  have hperm : ((e &&& 0x1F) ||| (e &&& 0x100) ||| (e &&& 1 <<< 63)) &&&
      ((2 ^ (40 - 9 * k) - 1) <<< (12 + 9 * k)) = 0 := by
    rcases Nat.le_one_iff_eq_zero_or_eq_one.mp hk with rfl | rfl <;>
      simp [Nat.and_or_distrib_right, Nat.and_assoc]
  have hsize : (if 21 + 9 * k > 21 then kPageSizeBit else 0) &&&
      ((2 ^ (40 - 9 * k) - 1) <<< (12 + 9 * k)) = 0 := by
    rcases Nat.le_one_iff_eq_zero_or_eq_one.mp hk with rfl | rfl <;> rfl
  rw [Nat.and_or_distrib_right, Nat.and_or_distrib_right, hperm, hsize, Nat.or_zero, Nat.or_zero,
    BitMask.and_mask, pageBits]
  rcases Nat.le_one_iff_eq_zero_or_eq_one.mp hk with rfl | rfl <;>
    simp only [Nat.shiftRight_eq_div_pow] <;> omega

/-- The parts of a large page have its attributes. -/
theorem attrs_splitEntry (he : e < 2 ^ 64) (hk : k ≤ 1) (j : Idx) :
    splitEntry e (21 + 9 * k) j &&& kLeafAttrs = e &&& kLeafAttrs := by
  have hj : (j : Nat) < 512 := j.isLt
  -- the address has the top bit of the page and none of the low ones
  have hlow : (e - e % 2 ^ (21 + 9 * k) + j * (2 ^ (21 + 9 * k)) >>> 9) % 2 ^ 12 = 0 ∧
      (e - e % 2 ^ (21 + 9 * k) + j * (2 ^ (21 + 9 * k)) >>> 9) / 2 ^ 63 = e / 2 ^ 63 := by
    rcases Nat.le_one_iff_eq_zero_or_eq_one.mp hk with rfl | rfl <;>
      simp only [Nat.shiftRight_eq_div_pow] <;> omega
  have hsize : (if 21 + 9 * k > 21 then kPageSizeBit else 0) &&& kLeafAttrs = 0 := by
    rcases Nat.le_one_iff_eq_zero_or_eq_one.mp hk with rfl | rfl <;> rfl
  rw [splitEntry_eq he (by omega), Nat.and_or_distrib_right, Nat.and_or_distrib_right, hsize,
    Nat.or_zero]
  generalize e - e % 2 ^ (21 + 9 * k) + j * (2 ^ (21 + 9 * k)) >>> 9 = x at hlow
  have h₁ : x &&& 0x1F = 0 := by
    have hlow5 : x &&& 0x1F = x % 2 ^ 5 := BitMask.and_low x 5
    omega
  have h₂ : x &&& 0x100 = 0 := by
    have hbit8 : x &&& 0x100 = x / 2 ^ 8 % 2 * 2 ^ 8 := BitMask.and_bit x 8
    omega
  have h₃ : x &&& 1 <<< 63 = e &&& 1 <<< 63 := by
    rw [BitMask.and_bit, BitMask.and_bit, hlow.2]
  have hattrs : ∀ y, y &&& kLeafAttrs = (y &&& 0x1F) ||| (y &&& 0x100) ||| (y &&& 1 <<< 63) := by
    intro y
    rw [kLeafAttrs, Nat.and_or_distrib_left, Nat.and_or_distrib_left]
  rw [← hattrs e, Nat.and_assoc, Nat.and_self, hattrs x, h₁, h₂, h₃, Nat.zero_or, Nat.zero_or,
    hattrs e, Nat.or_comm, Nat.or_assoc, Nat.or_self]

/-- **What a word shows survives a split.** -/
theorem leafRule_seen : LeafRule 0 seen where
  absent := fun _ _ h => seen_absent h
  split := by
    intro e j is he hp hl hlen
    have hn : 21 + 9 * is.length = 21 ∨ 21 + 9 * is.length = 30 := by omega
    have hp' := (splitEntry_spec he hp hn j).2.1
    rw [seen_present hp', seen_present hp, pageBits_splitEntry he (by omega),
      attrs_splitEntry he (by omega), List.length_cons, partOf]
    have hpow : (2 : Nat) ^ (12 + 9 * is.length) = 512 ^ is.length * 4096 := by
      rw [Nat.add_comm, Nat.pow_add, Nat.pow_mul]
    rw [hpow, Nat.add_mul, Nat.mul_assoc, Nat.add_assoc]

/-! ## Reading -/

/-- **`mm_get_page_addr` reads the leaf of the page**, whatever its size. -/
theorem mmGetPageAddr_seen (hS : Tree 0 m (root &&& kTableMask)) :
    mmGetPageAddr m root va = (seenAt m root va).elim 0 fun s => s.1 + va % 4096 := by
  have hentry : ∀ t shift, getLE m (cell t va shift) 8 = entry m t (idx va shift) := fun _ _ => rfl
  simp only [mmGetPageAddr, hentry, seenAt, pageIdx]
  generalize root &&& kTableMask = t4 at *
  -- one split for each level: the entry is absent, leads to a table, or is a leaf
  by_cases h4 : Present (entry m t4 (idx va 39))
  · have hs4 := hS.small [] t4 (idx va 39) (Nat.le_refl 0) rfl h4
    have hc4 : child m t4 (idx va 39) = some (tableBits (entry m t4 (idx va 39))) :=
      if_pos ⟨h4, hs4⟩
    rw [if_neg fun h => and_one_eq_zero.mp h h4, and_tableMask entry_lt,
      follow_child hc4 (List.cons_ne_nil _ _)]
    generalize tableBits (entry m t4 (idx va 39)) = t3
    by_cases h3 : Present (entry m t3 (idx va 30))
    · rw [if_neg fun h => and_one_eq_zero.mp h h3]
      by_cases hl3 : Large (entry m t3 (idx va 30))
      · have hmask : kAddrMask &&& kGiBMask = (2 ^ 22 - 1) <<< 30 := rfl
        rw [if_pos (and_pageSizeBit.mpr hl3), follow_leaf (child_large hl3), seen_present h3,
          Nat.and_assoc, hmask, BitMask.and_mask, kGiBOffset, BitMask.and_low,
          BitMask.or_eq_add (n := 30) (Nat.mul_mod_left _ _) (Nat.mod_lt _ (by decide))]
        simp only [Option.elim_some, pageBits, partOf, idx_val, List.length_cons, List.length_nil]
        omega
      · have hc3 : child m t3 (idx va 30) = some (tableBits (entry m t3 (idx va 30))) :=
          if_pos ⟨h3, hl3⟩
        rw [if_neg fun h => hl3 (and_pageSizeBit.mp h), and_tableMask entry_lt,
          follow_child hc3 (List.cons_ne_nil _ _)]
        generalize tableBits (entry m t3 (idx va 30)) = t2
        by_cases h2 : Present (entry m t2 (idx va 21))
        · rw [if_neg fun h => and_one_eq_zero.mp h h2]
          by_cases hl2 : Large (entry m t2 (idx va 21))
          · rw [if_pos (and_pageSizeBit.mpr hl2), follow_leaf (child_large hl2), seen_present h2,
              and_largeMask, kLargeOffset, BitMask.and_low,
              BitMask.or_eq_add (n := 21) (by rw [largeBits]; omega) (Nat.mod_lt _ (by decide))]
            simp only [Option.elim_some, largeBits, pageBits, partOf, idx_val, List.length_cons,
              List.length_nil]
            omega
          · have hc2 : child m t2 (idx va 21) = some (tableBits (entry m t2 (idx va 21))) :=
              if_pos ⟨h2, hl2⟩
            rw [if_neg fun h => hl2 (and_pageSizeBit.mp h), and_tableMask entry_lt,
              follow_child hc2 (List.cons_ne_nil _ _), follow_single]
            generalize tableBits (entry m t2 (idx va 21)) = t1
            by_cases h1 : Present (entry m t1 (idx va 12))
            · have hoff : va &&& kPageMask = va % 2 ^ 12 := BitMask.and_low _ 12
              rw [if_neg fun h => and_one_eq_zero.mp h h1, seen_present h1, and_addrMask, hoff,
                BitMask.or_eq_add (by rw [frameBits]; omega) (Nat.mod_lt _ (by decide))]
              simp only [Option.elim_some, frameBits, pageBits, partOf, List.length_nil,
                Nat.mul_zero, Nat.add_zero, Nat.zero_mul, Nat.sub_zero, Nat.reducePow]
            · rw [if_pos (and_one_eq_zero.mpr h1), seen_absent h1, Option.elim_none]
        · rw [if_pos (and_one_eq_zero.mpr h2), follow_leaf (child_absent h2), seen_absent h2,
            Option.elim_none]
    · rw [if_pos (and_one_eq_zero.mpr h3), follow_leaf (child_absent h3), seen_absent h3,
        Option.elim_none]
  · rw [if_pos (and_one_eq_zero.mpr h4), follow_leaf (child_absent h4), seen_absent h4,
      Option.elim_none]

/-! ## Walking -/

/-- A walk shows the same leaf for every address, and leaves a tree. -/
theorem mmWalkPage_same (va : Nat) (alloc : Bool) (hS : Tree 0 p.mem (root &&& kTableMask))
    (hA : FreshAnswers p.mem (root &&& kTableMask) p.answers) :
    Same 0 seen p.mem (mmWalkPage p root va alloc).2.mem (root &&& kTableMask) := by
  have hroot := hS.frame [] _ (Nat.zero_le 3) rfl
  have h0 : root ≠ 0 := by
    rintro rfl
    exact hroot.ne_zero rfl
  rw [mmWalkPage, if_neg h0]
  exact (hS.walkLevels_same va alloc (Nat.zero_le 1) leafRule_seen (q := []) List.suffix_rfl rfl
    rfl hA rfl).1

/-- **A walk is transparent.** Whether it returns a slot or stops for want of a frame, every address
is translated as before, by a leaf with the attributes it had. -/
theorem mmWalkPage_transparent (va : Nat) (alloc : Bool)
    (hS : Tree 0 p.mem (root &&& kTableMask))
    (hA : FreshAnswers p.mem (root &&& kTableMask) p.answers) (u : Nat) :
    mmGetPageAddr (mmWalkPage p root va alloc).2.mem root u = mmGetPageAddr p.mem root u ∧
      leafAttrs (mmWalkPage p root va alloc).2.mem root u = leafAttrs p.mem root u := by
  have hsame := mmWalkPage_same va alloc hS hA
  have hseen : seenAt (mmWalkPage p root va alloc).2.mem root u = seenAt p.mem root u :=
    hsame.pages (pageIdx u) pageIdx_length
  refine ⟨?_, ?_⟩
  · rw [mmGetPageAddr_seen hsame.tree, mmGetPageAddr_seen hS, hseen]
  · rw [leafAttrs, leafAttrs, hseen]

/-! ## One page of a GiB -/

/-- A root at `0x1000` over a table at `0x2000` whose first entry maps a GiB. -/
def gibStore : Store := putLE (putLE zeros 0x1000 8 0x2007) 0x2000 8 0x40000083

theorem entry_gibStore_root (i : Idx) :
    entry gibStore 0x1000 i = if i = 0 then 0x2007 else 0 := by
  have hi : (i : Nat) < 512 := i.isLt
  rw [entry, gibStore, getLE_putLE_of_disjoint (by omega)]
  split
  · next h =>
      rw [h]
      exact getLE_putLE_same
  · next h =>
      have hpos : (i : Nat) ≠ 0 := fun h0 => h (Fin.ext h0)
      rw [getLE_putLE_of_disjoint (by omega)]
      exact getLE_zeros

theorem entry_gibStore_table (i : Idx) :
    entry gibStore 0x2000 i = if i = 0 then 0x40000083 else 0 := by
  have hi : (i : Nat) < 512 := i.isLt
  rw [entry, gibStore]
  split
  · next h =>
      rw [h]
      exact getLE_putLE_same
  · next h =>
      have hpos : (i : Nat) ≠ 0 := fun h0 => h (Fin.ext h0)
      rw [getLE_putLE_of_disjoint (by omega), getLE_putLE_of_disjoint (by omega)]
      exact getLE_zeros

theorem tableAt_gibStore {q : List Idx} {t : Nat} (ht : tableAt gibStore 0x1000 q = some t) :
    q = [] ∧ t = 0x1000 ∨ q = [0] ∧ t = 0x2000 := by
  induction q generalizing t with
  | nil => exact .inl ⟨rfl, (Option.some.inj ht).symm⟩
  | cons i q ih =>
      obtain ⟨t', ht', hc⟩ := Option.bind_eq_some_iff.mp ht
      rcases ih ht' with ⟨rfl, rfl⟩ | ⟨rfl, rfl⟩
      · rw [child, entry_gibStore_root] at hc
        by_cases hi : i = 0
        · rw [if_pos hi, if_pos (by decide)] at hc
          exact .inr ⟨by rw [hi], (Option.some.inj hc).symm⟩
        · rw [if_neg hi, if_neg (by decide)] at hc
          cases hc
      · rw [child, entry_gibStore_table] at hc
        by_cases hi : i = 0
        · rw [if_pos hi, if_neg (by decide)] at hc
          cases hc
        · rw [if_neg hi, if_neg (by decide)] at hc
          cases hc

theorem tree_gibStore : Tree 0 gibStore 0x1000 where
  frame := by
    intro q t _ ht
    rcases tableAt_gibStore ht with ⟨-, rfl⟩ | ⟨-, rfl⟩ <;> exact ⟨by decide, by decide, by decide⟩
  inj := by
    intro q q' t _ _ ht ht'
    rcases tableAt_gibStore ht with ⟨rfl, rfl⟩ | ⟨rfl, rfl⟩ <;>
      rcases tableAt_gibStore ht' with ⟨rfl, h⟩ | ⟨rfl, h⟩
    · rfl
    · cases h
    · cases h
    · rfl
  small := by
    intro q t i hq ht _
    rcases tableAt_gibStore ht with ⟨-, rfl⟩ | ⟨rfl, rfl⟩
    · rw [entry_gibStore_root]
      split <;> decide
    · cases hq

theorem freshAnswers_gibStore : FreshAnswers gibStore 0x1000 [0x3000, 0x4000] where
  fresh := by
    intro f hf _
    simp only [List.mem_cons, List.not_mem_nil, or_false] at hf
    refine ⟨?_, fun q _ ht => ?_⟩
    · rcases hf with rfl | rfl <;> exact ⟨by decide, by decide, by decide⟩
    · rcases tableAt_gibStore ht with ⟨-, rfl⟩ | ⟨-, rfl⟩ <;> simp at hf
  once := by decide

/-- The page is split twice, and shows as it did. -/
theorem mmWalkPage_transparent_gib :
    mmGetPageAddr (mmWalkPage ⟨gibStore, [0x3000, 0x4000]⟩ 0x1000 0 true).2.mem 0x1000 0x1234 =
        mmGetPageAddr gibStore 0x1000 0x1234 ∧
      leafAttrs (mmWalkPage ⟨gibStore, [0x3000, 0x4000]⟩ 0x1000 0 true).2.mem 0x1000 0x1234 =
        leafAttrs gibStore 0x1000 0x1234 :=
  mmWalkPage_transparent (p := ⟨gibStore, [0x3000, 0x4000]⟩) 0 true tree_gibStore
    freshAnswers_gibStore 0x1234

end NeKernel.HALKit
