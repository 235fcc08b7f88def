import NeKernel.HALKit.PageWalk
import NeKernel.Lib.Runs

/-!
# Page tables as a map from pages to frames

What the page tables are for: a partial map from the pages of the 48-bit address space to frames.
`mm_init_kernel_tables` builds the identity below its limit, rounded up to a GiB
(`mmInitKernelTables_spec`); `mm_map_page_in` and `mm_unmap_page` change the map at one page or not
at all; and `mm_get_page_addr` reads it. So along every run the tables and the map agree
(`paging_refines`), whichever frames the allocator gives and wherever it runs out.
-/

namespace NeKernel.HALKit

open ByteStore Runs

/-- A map from page numbers to frames. -/
abbrev PageMap := Nat → Option Nat

/-- The number of the page of an address. -/
def pageOf (va : Nat) : Nat := va / 4096 % 2 ^ 36

theorem pageOf_lt (va : Nat) : pageOf va < 2 ^ 36 := Nat.mod_lt _ (by decide)

/-- Where a page map sends an address; `0` when its page is not mapped. -/
def PageMap.addr (A : PageMap) (va : Nat) : Nat :=
  match A (pageOf va) with
  | none => 0
  | some f => f + va % 4096

/-- The indices of the page of an address. -/
def pageIdx (va : Nat) : List Idx := [idx va 39, idx va 30, idx va 21, idx va 12]

variable {m : Store} {p p' : Phys} {root va va' : Nat}

theorem idx_val (va shift : Nat) : (idx va shift : Nat) = va / 2 ^ shift % 512 := by
  show (va >>> shift) &&& kMask9 = _
  rw [Nat.shiftRight_eq_div_pow]
  exact BitMask.and_low _ 9

theorem pagePath_reverse : (pagePath va).reverse ++ [idx va 12] = pageIdx va := rfl

theorem pageIdx_length : (pageIdx va).length = 4 := rfl

/-- The indices tell pages apart. -/
theorem pageIdx_eq_iff : pageIdx va = pageIdx va' ↔ pageOf va = pageOf va' := by
  simp only [pageIdx, List.cons.injEq, and_true, Fin.ext_iff, idx_val, pageOf]
  omega

/-! ## Reading -/

/-- **`mm_get_page_addr` follows the indices of the page** and adds the offset. -/
theorem mmGetPageAddr_eq (hS : Shape m root) :
    mmGetPageAddr m root va =
      match resolve m root (pageIdx va) with
      | none => 0
      | some f => f + va % 4096 := by
  have hroot := hS.frame [] root (by simp) rfl
  have hmask : root &&& kTableMask = root := by
    have h₁ := hroot.bound
    have h₂ := hroot.aligned
    rw [and_tableMask (by omega), tableBits]
    omega
  have hentry : ∀ t shift, getLE m (cell t va shift) 8 = entry m t (idx va shift) := fun _ _ => rfl
  simp only [mmGetPageAddr, hmask, hentry, pageIdx]
  -- one split for each level: the entry is absent, leads to a table, or is a leaf
  by_cases h4 : Present (entry m root (idx va 39))
  · have hs4 := hS.small [] root (idx va 39) (by simp) rfl h4
    have hc4 : child m root (idx va 39) = some (tableBits (entry m root (idx va 39))) :=
      if_pos ⟨h4, hs4⟩
    have ht4 : tableAt m root [idx va 39] = some (tableBits (entry m root (idx va 39))) :=
      (tableAt_cons rfl).trans hc4
    rw [if_neg fun h => and_one_eq_zero.mp h h4, and_tableMask entry_lt,
      resolve_child hc4 (List.cons_ne_nil _ _)]
    generalize tableBits (entry m root (idx va 39)) = t3 at ht4
    by_cases h3 : Present (entry m t3 (idx va 30))
    · have hs3 := hS.small _ t3 (idx va 30) (by simp) ht4 h3
      have hc3 : child m t3 (idx va 30) = some (tableBits (entry m t3 (idx va 30))) :=
        if_pos ⟨h3, hs3⟩
      rw [if_neg fun h => and_one_eq_zero.mp h h3, if_neg fun h => hs3 (and_pageSizeBit.mp h),
        and_tableMask entry_lt, resolve_child hc3 (List.cons_ne_nil _ _)]
      generalize tableBits (entry m t3 (idx va 30)) = t2
      by_cases h2 : Present (entry m t2 (idx va 21))
      · rw [if_neg fun h => and_one_eq_zero.mp h h2]
        by_cases hl : Large (entry m t2 (idx va 21))
        · rw [if_pos (and_pageSizeBit.mpr hl), resolve_leaf (child_large hl), leaf, if_pos h2,
            if_pos hl, and_largeMask, kLargeOffset, BitMask.and_low,
            BitMask.or_eq_add (n := 21) (by rw [largeBits]; omega) (Nat.mod_lt _ (by decide))]
          simp only [idx_val]
          omega
        · have hc2 : child m t2 (idx va 21) = some (tableBits (entry m t2 (idx va 21))) :=
            if_pos ⟨h2, hl⟩
          rw [if_neg fun h => hl (and_pageSizeBit.mp h), and_tableMask entry_lt,
            resolve_child hc2 (List.cons_ne_nil _ _), resolve_single]
          generalize tableBits (entry m t2 (idx va 21)) = t1
          by_cases h1 : Present (entry m t1 (idx va 12))
          · have hoff : va &&& kPageMask = va % 2 ^ 12 := BitMask.and_low _ 12
            rw [if_neg fun h => and_one_eq_zero.mp h h1, leaf, if_pos h1, and_addrMask, hoff,
              BitMask.or_eq_add (by rw [frameBits]; omega) (Nat.mod_lt _ (by decide))]
            rfl
          · rw [if_pos (and_one_eq_zero.mpr h1), leaf_absent h1]
      · rw [if_pos (and_one_eq_zero.mpr h2), resolve_leaf (child_absent h2), leaf_absent h2]
    · rw [if_pos (and_one_eq_zero.mpr h3), resolve_leaf (child_absent h3), leaf_absent h3]
  · rw [if_pos (and_one_eq_zero.mpr h4), resolve_leaf (child_absent h4), leaf_absent h4]

/-! ## The tables and the map -/

/-- The tables under `root` hold the map `A`. -/
structure Holds (m : Store) (root : Nat) (A : PageMap) : Prop where
  shape : Shape m root
  pages : ∀ va, resolve m root (pageIdx va) = A (pageOf va)

theorem Holds.read {A : PageMap} (h : Holds m root A) (va : Nat) :
    mmGetPageAddr m root va = A.addr va := by
  rw [mmGetPageAddr_eq h.shape, h.pages, PageMap.addr]

/-- What an entry maps is a frame of the 52-bit physical address space. -/
theorem leaf_frame {t f : Nat} {i : Idx} {is : List Idx} (h : leaf m t i is = some f) :
    f % 4096 = 0 ∧ f < 2 ^ 52 := by
  unfold leaf at h
  split at h
  · split at h
    · cases h
      rw [frameBits]
      omega
    · next j _ =>
        have hj : (j : Nat) < 512 := j.isLt
        split at h
        · cases h
          rw [largeBits]
          omega
        · cases h
  · cases h

theorem resolve_frame {t f : Nat} {is : List Idx} (h : resolve m t is = some f) :
    f % 4096 = 0 ∧ f < 2 ^ 52 := by
  induction is generalizing t with
  | nil => cases h
  | cons i is ih =>
      rw [resolve] at h
      split at h
      · exact leaf_frame h
      · split at h
        · exact ih h
        · exact leaf_frame h

theorem Holds.frame {A : PageMap} {f : Nat} (h : Holds m root A) (hf : A (pageOf va) = some f) :
    f % 4096 = 0 ∧ f < 2 ^ 52 := resolve_frame ((h.pages va).trans hf)

theorem Kept.holds {m' : Store} {A : PageMap} (hK : Kept m m' root) (h : Holds m root A) :
    Holds m' root A :=
  ⟨hK.shape, fun va => (hK.pages _ pageIdx_length).trans (h.pages va)⟩

/-- Writing the entry of a page in its page table changes the map at that page. -/
theorem Holds.setPage {A : PageMap} (h : Holds m root A) {pt w : Nat}
    (hpt : tableAt m root (pagePath va) = some pt) (hw : w < 2 ^ 64) :
    Holds (putLE m (pt + 8 * idx va 12) 8 w) root
      (Function.update A (pageOf va) (if Present w then some (frameBits w) else none)) := by
  have hlen : (pagePath va).length = 3 := rfl
  obtain ⟨hS, hpage, hother⟩ :=
    (h.shape.onlyEntry_put (i := idx va 12) (w := w) hpt (by omega)).setPage h.shape hpt hlen
  rw [leaf, entry_putLE_same hw, pagePath_reverse] at hpage
  refine ⟨hS, fun va' => ?_⟩
  by_cases hva : pageOf va' = pageOf va
  · rw [hva, Function.update_self, pageIdx_eq_iff.mpr hva, hpage]
  · rw [Function.update_of_ne hva, ← h.pages va']
    exact hother _ pageIdx_length fun heq => hva (pageIdx_eq_iff.mp heq)

/-! ## Mapping and unmapping -/

theorem flagBit_le (flags flag : Nat) : flagBit flags flag ≤ 1 := by
  unfold flagBit
  split <;> omega

/-- The entry of a mapping: present as the flags say, with the frame it maps. -/
theorem pteWord_spec {pa : Nat} (flags : Nat) (hpa : pa < 2 ^ 52) (haligned : pa % 4096 = 0) :
    pteWord pa flags < 2 ^ 64 ∧ (Present (pteWord pa flags) ↔ flags &&& kMMFlagsPresent ≠ 0) ∧
      frameBits (pteWord pa flags) = pa := by
  have h₁ := flagBit_le flags kMMFlagsPresent
  have h₂ := flagBit_le flags kMMFlagsWr
  have h₃ := flagBit_le flags kMMFlagsUser
  have h₄ := flagBit_le flags kMMFlagsPwt
  have h₅ := flagBit_le flags kMMFlagsPCD
  have h₆ := flagBit_le flags kMMFlagsNX
  have hshift : pa >>> 12 = pa / 4096 := Nat.shiftRight_eq_div_pow pa 12
  have hbit : flagBit flags kMMFlagsPresent = 1 ↔ flags &&& kMMFlagsPresent ≠ 0 := by
    unfold flagBit
    split
    · next h => exact ⟨fun _ => h, fun _ => rfl⟩
    · next h => exact ⟨fun h0 => absurd h0 (by decide), fun h0 => absurd h0 h⟩
  rw [← hbit]
  simp only [pteWord, hshift, Present, frameBits]
  omega

/-- The map after a mapping call with its status code. -/
def mapSpec (A : PageMap) (va pa flags : Nat) (code : Int) : PageMap :=
  if code = kErrorSuccess then
    Function.update A (pageOf va) (if flags &&& kMMFlagsPresent ≠ 0 then some pa else none)
  else A

/-- **A mapping call** sets the page when it reports success, and changes no page otherwise. -/
theorem mmMapPageIn_spec {A : PageMap} (h : Holds p.mem root A)
    (hA : FreshAnswers p.mem root p.answers) {pa flags : Nat} (hpa : pa < 2 ^ 52)
    {r : Int × Phys} (hr : mmMapPageIn p root va pa flags = r) :
    Holds r.2.mem root (mapSpec A va pa flags r.1) := by
  have hfail : kErrorInvalidData ≠ kErrorSuccess := by decide
  subst hr
  unfold mmMapPageIn
  split
  · rw [mapSpec, if_neg hfail]
    exact h
  · split
    · rw [mapSpec, if_neg hfail]
      exact h
    · next haligned =>
        have haligned : pa % 4096 = 0 := by
          have : pa &&& (kPageSize - 1) = pa % 2 ^ 12 := BitMask.and_low _ 12
          rw [this] at haligned
          omega
        obtain ⟨hK, -, hslot⟩ := mmWalkPage_spec va true h.shape hA rfl
        split
        · next q hw =>
            rw [hw] at hK
            rw [mapSpec, if_neg hfail]
            exact hK.holds h
        · next slot q hw =>
            rw [hw] at hK hslot
            obtain ⟨pt, rfl, hpt⟩ := hslot slot rfl
            obtain ⟨hlt, hpres, hframe⟩ := pteWord_spec flags hpa haligned
            have hset := (hK.holds h).setPage hpt hlt
            rw [hframe] at hset
            rw [mapSpec, if_pos rfl]
            simpa only [hpres] using hset

/-- The walk of an unmapping call reaches a present entry of a page table. -/
def walkReaches (m : Store) (root va : Nat) : Bool :=
  match mmWalkPage ⟨m, []⟩ root va false with
  | (none, _) => false
  | (some slot, p) => getLE p.mem slot 8 &&& 1 ≠ 0

/-- The map after an unmapping call. -/
def unmapSpec (A : PageMap) (m : Store) (root va : Nat) : PageMap :=
  if walkReaches m root va then Function.update A (pageOf va) none else A

/-- **An unmapping call** clears the page and returns the frame it held when its walk reaches a
present entry of a page table; otherwise it returns `0` and changes no page. -/
theorem mmUnmapPage_spec {A : PageMap} (h : Holds m root A) {r : Nat × Phys}
    (hr : mmUnmapPage ⟨m, []⟩ root va = r) :
    Holds r.2.mem root (unmapSpec A m root va) ∧
      (walkReaches m root va = true → A (pageOf va) = some r.1) ∧
      (walkReaches m root va = false → r.1 = 0) := by
  obtain ⟨hK, -, hslot⟩ := mmWalkPage_spec va false (p := ⟨m, []⟩) h.shape
    ⟨by simp, .nil⟩ rfl
  subst hr
  -- the walk stops, or comes to an entry that is absent, or to one that is cleared
  rcases hw : mmWalkPage ⟨m, []⟩ root va false with ⟨_ | slot, q⟩
  · have hno : walkReaches m root va = false := by rw [walkReaches, hw]
    have hun : mmUnmapPage ⟨m, []⟩ root va = (0, q) := by rw [mmUnmapPage, hw]
    rw [hw] at hK
    rw [hun, unmapSpec, hno]
    exact ⟨hK.holds h, fun hyes => absurd hyes Bool.false_ne_true, fun _ => rfl⟩
  · rw [hw] at hK hslot
    obtain ⟨pt, rfl, hpt⟩ := hslot slot rfl
    have hq := hK.holds h
    by_cases habs : getLE q.mem (pt + 8 * idx va 12) 8 &&& 1 = 0
    · have hno : walkReaches m root va = false := by
        rw [walkReaches, hw]
        exact decide_eq_false (not_not.mpr habs)
      have hun : mmUnmapPage ⟨m, []⟩ root va = (0, q) := by
        rw [mmUnmapPage, hw]
        exact if_pos habs
      rw [hun, unmapSpec, hno]
      exact ⟨hq, fun hyes => absurd hyes Bool.false_ne_true, fun _ => rfl⟩
    · have hyes : walkReaches m root va = true := by
        rw [walkReaches, hw]
        exact decide_eq_true habs
      have hun : mmUnmapPage ⟨m, []⟩ root va =
          (getLE q.mem (pt + 8 * idx va 12) 8 &&& kAddrMask,
            ⟨putLE q.mem (pt + 8 * idx va 12) 8 0, q.answers⟩) := by
        rw [mmUnmapPage, hw]
        exact if_neg habs
      have hpres : Present (entry q.mem pt (idx va 12)) := by
        by_contra hn
        exact habs (and_one_eq_zero.mpr hn)
      have hset := hq.setPage hpt (w := 0) (by decide)
      rw [if_neg (by decide)] at hset
      rw [hun, unmapSpec, hyes]
      refine ⟨hset, fun _ => ?_, fun hno => by cases hno⟩
      rw [← hq.pages va, ← pagePath_reverse, resolve_append hpt (List.cons_ne_nil _ _),
        resolve_single, leaf, if_pos hpres, ← and_addrMask]
      rfl

end NeKernel.HALKit
