import NeKernel.HALKit.PagingMgr
import NeKernel.Lib.BitMask
import Mathlib.Data.List.Infix

/-!
# The tree of page tables

The tables under a root form a tree of four levels. A table is named by its *path*, the indices
that lead to it, last one first: the root is `[]`, and page tables have paths of length three.
`tableAt` follows a path; `resolve` follows the indices of a page down to the frame it is mapped
to.

The tree has a *shape* (`Shape`): its tables are frames of their own, no two paths lead to one
table, and large pages stand in page directories only. A change of one entry of one table changes
what the paths through that entry see and nothing else. Two rules say what follows from it:
`Install` for a new table hung under an entry without one, and `resolve_setEntry` for an entry of
a page table.
-/

namespace NeKernel.HALKit

open ByteStore

/-- An index into a table. -/
abbrev Idx := Fin 512

/-- The word of entry `i` of the table at `t`. -/
def entry (m : Store) (t : Nat) (i : Idx) : Nat := getLE m (t + 8 * i) 8

/-! ## Entries -/

abbrev Present (e : Nat) : Prop := e % 2 = 1
abbrev Large (e : Nat) : Prop := e / 128 % 2 = 1

/-- Where an entry that is not large points. -/
def tableBits (e : Nat) : Nat := e - e % 4096

/-- The frame of an entry of a page table. -/
def frameBits (e : Nat) : Nat := e / 2 ^ 12 % 2 ^ 40 * 2 ^ 12

/-- The first frame of a large page. -/
def largeBits (e : Nat) : Nat := e / 2 ^ 21 % 2 ^ 31 * 2 ^ 21

theorem and_one_eq_zero {e : Nat} : e &&& 1 = 0 ↔ ¬ Present e := by
  have := BitMask.and_low e 1
  simp only [Nat.pow_one, Nat.add_one_sub_one] at this
  rw [this]
  simp only [Present]
  omega

theorem and_pageSizeBit {e : Nat} : e &&& kPageSizeBit ≠ 0 ↔ Large e := by
  have h := BitMask.and_bit e 7
  have hbit : (1 <<< 7 : Nat) = kPageSizeBit := rfl
  rw [hbit] at h
  rw [h, Large]
  omega

theorem and_tableMask {e : Nat} (he : e < 2 ^ 64) : e &&& kTableMask = tableBits e := by
  have hmask : kTableMask = (2 ^ 52 - 1) <<< 12 := by decide
  rw [hmask, BitMask.and_high (by simpa using he), tableBits]
  rfl

theorem and_addrMask {e : Nat} : e &&& kAddrMask = frameBits e := by
  have hmask : kAddrMask = (2 ^ 40 - 1) <<< 12 := by decide
  rw [hmask, BitMask.and_mask, frameBits]

theorem and_largeMask {e : Nat} : e &&& kAddrMask &&& kLargeMask = largeBits e := by
  have hmask : kAddrMask &&& kLargeMask = (2 ^ 31 - 1) <<< 21 := by decide
  rw [Nat.and_assoc, hmask, BitMask.and_mask, largeBits]

/-- A frame with permission bits is an entry that points at the frame. -/
theorem frame_or {f perm : Nat} (hf : f % 4096 = 0) (hp : perm < 128) :
    f ||| perm = f + perm ∧ tableBits (f ||| perm) = f ∧ ¬ Large (f ||| perm) := by
  have h : f ||| perm = f + perm := BitMask.or_eq_add (n := 12) hf (by omega)
  rw [h]
  refine ⟨rfl, ?_, ?_⟩
  · simp only [tableBits]
    omega
  · simp only [Large]
    omega

/-! ## Paths -/

variable {m m' : Store} {root t u f d : Nat} {p q : List Idx} {i j : Idx} {is js : List Idx}
  {β : Type*} {ℓ : Nat → List Idx → Option β}

/-- The table below entry `i` of the table at `t`. -/
def child (m : Store) (t : Nat) (i : Idx) : Option Nat :=
  if Present (entry m t i) ∧ ¬ Large (entry m t i) then some (tableBits (entry m t i)) else none

/-- The table at a path. -/
def tableAt (m : Store) (root : Nat) : List Idx → Option Nat
  | [] => some root
  | i :: p => (tableAt m root p).bind fun t => child m t i

/-- What entry `i` of the table at `t` maps by itself, `is` being the indices below it: a frame in a
page table, a part of a large page in a directory. -/
def leaf (m : Store) (t : Nat) (i : Idx) (is : List Idx) : Option Nat :=
  if Present (entry m t i) then
    match is with
    | [] => some (frameBits (entry m t i))
    | j :: _ => if Large (entry m t i) then some (largeBits (entry m t i) + j * 4096) else none
  else none

/-- The frame that the indices `is` lead to from the table at `t`. -/
def resolve (m : Store) : Nat → List Idx → Option Nat
  | _, [] => none
  | t, i :: is =>
    if is = [] then leaf m t i []
    else
      match child m t i with
      | some u => resolve m u is
      | none => leaf m t i is

/-- What a word maps as an entry with the indices `is` below it. -/
def leafOf (e : Nat) (is : List Idx) : Option Nat :=
  if Present e then
    match is with
    | [] => some (frameBits e)
    | j :: _ => if Large e then some (largeBits e + j * 4096) else none
  else none

/-- What the indices `is` lead to from the table at `t`, when the word at the end is read by the
rule `ℓ`. -/
def follow (ℓ : Nat → List Idx → Option β) (m : Store) : Nat → List Idx → Option β
  | _, [] => none
  | t, i :: is =>
    if is = [] then ℓ (entry m t i) []
    else
      match child m t i with
      | some u => follow ℓ m u is
      | none => ℓ (entry m t i) is

theorem resolve_follow : resolve m t is = follow leafOf m t is := by
  induction is generalizing t with
  | nil => rfl
  | cons i is ih =>
      rw [resolve, follow]
      cases child m t i with
      | none => rfl
      | some u => simp only [ih]; rfl

theorem child_absent (h : ¬ Present (entry m t i)) : child m t i = none :=
  if_neg fun hc => h hc.1

theorem child_large (h : Large (entry m t i)) : child m t i = none := if_neg fun hc => hc.2 h

theorem leaf_absent (h : ¬ Present (entry m t i)) : leaf m t i is = none := by
  unfold leaf
  exact if_neg h

theorem tableAt_cons (ht : tableAt m root p = some t) : tableAt m root (i :: p) = child m t i := by
  rw [tableAt, ht, Option.bind_some]

theorem follow_single : follow ℓ m t [i] = ℓ (entry m t i) [] := by
  rw [follow, if_pos rfl]

theorem follow_child (hc : child m t i = some u) (his : is ≠ []) :
    follow ℓ m t (i :: is) = follow ℓ m u is := by
  rw [follow, if_neg his, hc]

theorem follow_leaf (hc : child m t i = none) : follow ℓ m t (i :: is) = ℓ (entry m t i) is := by
  by_cases his : is = []
  · rw [his, follow_single]
  · rw [follow, if_neg his, hc]

/-- Following a path and then the rest is following the rest from the path's table. -/
theorem follow_append (ht : tableAt m root p = some t) (his : is ≠ []) :
    follow ℓ m root (p.reverse ++ is) = follow ℓ m t is := by
  induction p generalizing t is with
  | nil =>
      cases ht
      rfl
  | cons i p ih =>
      obtain ⟨t', ht', hc⟩ := Option.bind_eq_some_iff.mp ht
      rw [List.reverse_cons, List.append_assoc, List.singleton_append,
        ih ht' (List.cons_ne_nil _ _), follow_child hc his]

theorem resolve_single : resolve m t [i] = leaf m t i [] := by
  rw [resolve, if_pos rfl]

theorem resolve_child (hc : child m t i = some u) (his : is ≠ []) :
    resolve m t (i :: is) = resolve m u is := by
  rw [resolve_follow, resolve_follow, follow_child hc his]

theorem resolve_leaf (hc : child m t i = none) : resolve m t (i :: is) = leaf m t i is := by
  rw [resolve_follow, follow_leaf hc]
  rfl

theorem resolve_append (ht : tableAt m root p = some t) (his : is ≠ []) :
    resolve m root (p.reverse ++ is) = resolve m t is := by
  rw [resolve_follow, resolve_follow, follow_append ht his]

/-- Nothing lies below an entry that has no table. -/
theorem tableAt_below_none (ht : tableAt m root p = some t) (hc : child m t i = none)
    (r : List Idx) : tableAt m root (r ++ i :: p) = none := by
  induction r with
  | nil => rw [List.nil_append, tableAt_cons ht, hc]
  | cons j r ih => rw [List.cons_append, tableAt, ih, Option.bind_none]

/-! ## Changing one entry -/

/-- Of all entries of all tables, only entry `i` of the table at `p` may differ. -/
def OnlyEntry (m m' : Store) (root : Nat) (p : List Idx) (i : Idx) : Prop :=
  ∀ q u j, q.length ≤ 3 → tableAt m root q = some u → q ≠ p ∨ j ≠ i → entry m' u j = entry m u j

theorem child_congr (h : entry m' t i = entry m t i) : child m' t i = child m t i := by
  rw [child, child, h]

theorem leaf_congr (h : entry m' t i = entry m t i) : leaf m' t i is = leaf m t i is := by
  simp only [leaf, h]

/-- Tables whose path does not go through the entry stay. -/
theorem OnlyEntry.tableAt_eq (h : OnlyEntry m m' root p i) (hq : q.length ≤ 3)
    (hs : ¬ i :: p <:+ q) : tableAt m' root q = tableAt m root q := by
  induction q with
  | nil => rfl
  | cons j q ih =>
      have hq' : q.length ≤ 3 := Nat.le_of_succ_le hq
      rw [tableAt, tableAt, ih hq' fun hsq => hs (hsq.trans (List.suffix_cons j q))]
      cases hu : tableAt m root q with
      | none => rw [Option.bind_none, Option.bind_none]
      | some u =>
          have hne : q ≠ p ∨ j ≠ i := by
            by_contra hn
            obtain ⟨rfl, rfl⟩ : q = p ∧ j = i := by
              simpa [not_or] using hn
            exact hs List.suffix_rfl
          rw [Option.bind_some, Option.bind_some, child_congr (h q u j hq' hu hne)]

/-- The indices `js`, followed from the path `q`, never use entry `i` of the table at `p`. -/
def Avoids (p : List Idx) (i : Idx) : List Idx → List Idx → Prop
  | _, [] => True
  | q, j :: js => (q ≠ p ∨ j ≠ i) ∧ Avoids p i (j :: q) js

theorem avoids_of_length (h : p.length < q.length) : Avoids p i q js := by
  induction js generalizing q with
  | nil => trivial
  | cons j js ih =>
      refine ⟨.inl ?_, ih (by rw [List.length_cons]; omega)⟩
      rintro rfl
      omega

/-- Either the indices avoid the entry, or they lead to its table and then use it. -/
theorem avoids_or (q : List Idx) (js : List Idx) :
    Avoids p i q js ∨ ∃ r is, js = r ++ i :: is ∧ p = r.reverse ++ q := by
  induction js generalizing q with
  | nil => exact .inl trivial
  | cons j js ih =>
      by_cases hj : q = p ∧ j = i
      · obtain ⟨rfl, rfl⟩ := hj
        exact .inr ⟨[], js, rfl, rfl⟩
      · rcases ih (j :: q) with h | ⟨r, is, rfl, rfl⟩
        · exact .inl ⟨by by_contra hn; exact hj (by simpa [not_or] using hn), h⟩
        · exact .inr ⟨j :: r, is, rfl, by simp⟩

/-- Indices that avoid the entry lead where they led. -/
theorem OnlyEntry.follow_eq (h : OnlyEntry m m' root p i) (hu : tableAt m root q = some u)
    (hlen : q.length + js.length ≤ 4) (ha : Avoids p i q js) :
    follow ℓ m' u js = follow ℓ m u js := by
  induction js generalizing q u with
  | nil => rfl
  | cons j js ih =>
      rw [List.length_cons] at hlen
      have he : entry m' u j = entry m u j := h q u j (by omega) hu ha.1
      cases hc : child m u j with
      | none => rw [follow_leaf hc, follow_leaf ((child_congr he).trans hc), he]
      | some v =>
          by_cases hjs : js = []
          · rw [hjs, follow_single, follow_single, he]
          · rw [follow_child hc hjs, follow_child ((child_congr he).trans hc) hjs]
            exact ih ((tableAt_cons hu).trans hc) (by rw [List.length_cons]; omega) ha.2

/-- From the root: indices that avoid the entry lead where they led, the others lead where the
changed entry leads. -/
theorem OnlyEntry.follow_cases (ℓ : Nat → List Idx → Option β) (h : OnlyEntry m m' root p i)
    (hlen : js.length = 4) :
    follow ℓ m' root js = follow ℓ m root js ∨ ∃ is, js = p.reverse ++ i :: is := by
  rcases avoids_or (p := p) (i := i) [] js with ha | ⟨r, is, rfl, rfl⟩
  · exact .inl (h.follow_eq (q := []) rfl (by simp [hlen]) ha)
  · exact .inr ⟨is, by simp⟩

theorem OnlyEntry.resolve_cases (h : OnlyEntry m m' root p i) (hlen : js.length = 4) :
    resolve m' root js = resolve m root js ∨ ∃ is, js = p.reverse ++ i :: is := by
  rw [resolve_follow, resolve_follow]
  exact h.follow_cases leafOf hlen

/-! ## The shape of the tree -/

/-- A frame that can hold a table. -/
structure TableFrame (t : Nat) : Prop where
  aligned : t % 4096 = 0
  ne_zero : t ≠ 0
  bound : t + 4096 ≤ 2 ^ 52

/-- The tables are frames of their own, and large pages stand in directories only. -/
structure Shape (m : Store) (root : Nat) : Prop where
  frame : ∀ q t, q.length ≤ 3 → tableAt m root q = some t → TableFrame t
  inj : ∀ q q' t, q.length ≤ 3 → q'.length ≤ 3 → tableAt m root q = some t →
    tableAt m root q' = some t → q = q'
  small : ∀ q t i, q.length ≤ 1 → tableAt m root q = some t → Present (entry m t i) →
    ¬ Large (entry m t i)

/-- The same for trees that may have large pages below depth `d`. -/
structure Tree (d : Nat) (m : Store) (root : Nat) : Prop where
  frame : ∀ q t, q.length ≤ 3 → tableAt m root q = some t → TableFrame t
  inj : ∀ q q' t, q.length ≤ 3 → q'.length ≤ 3 → tableAt m root q = some t →
    tableAt m root q' = some t → q = q'
  small : ∀ q t i, q.length ≤ d → tableAt m root q = some t → Present (entry m t i) →
    ¬ Large (entry m t i)

theorem Shape.tree (h : Shape m root) : Tree 1 m root := ⟨h.frame, h.inj, h.small⟩

theorem Tree.shape (h : Tree 1 m root) : Shape m root := ⟨h.frame, h.inj, h.small⟩

/-- A frame that is no table yet. -/
structure FreshFrame (m : Store) (root f : Nat) : Prop extends TableFrame f where
  unused : ∀ q, q.length ≤ 3 → tableAt m root q ≠ some f

/-- Table frames that differ do not overlap. -/
theorem TableFrame.apart (h : TableFrame t) (h' : TableFrame u) (hne : t ≠ u) :
    t + 4096 ≤ u ∨ u + 4096 ≤ t := by
  have := h.aligned
  have := h'.aligned
  omega

/-- A write inside one entry and a frame that is no table changes that entry only. -/
theorem Tree.onlyEntry (hS : Tree d m root) (ht : tableAt m root p = some t) (hp : p.length ≤ 3)
    (hf : FreshFrame m root f)
    (hm : ∀ x, x < t + 8 * i ∨ t + 8 * i + 8 ≤ x → x < f ∨ f + 4096 ≤ x → m' x = m x) :
    OnlyEntry m m' root p i := by
  intro q u j hq hu hne
  have hj : (j : Nat) < 512 := j.isLt
  have huf : u + 4096 ≤ f ∨ f + 4096 ≤ u := by
    refine (hS.frame q u hq hu).apart hf.toTableFrame ?_
    rintro rfl
    exact hf.unused q hq hu
  have hcell : u + 8 * j + 8 ≤ t + 8 * i ∨ t + 8 * i + 8 ≤ u + 8 * j := by
    have hi : (i : Nat) < 512 := i.isLt
    by_cases hqp : q = p
    · subst hqp
      have hut : u = t := Option.some.inj (hu.symm.trans ht)
      have hji : (j : Nat) ≠ i := fun h => (hne.resolve_left (by simp)) (Fin.ext h)
      omega
    · have hut : u ≠ t := by
        rintro rfl
        exact hqp (hS.inj q p u hq hp hu ht)
      have := (hS.frame q u hq hu).apart (hS.frame p t hp ht) hut
      omega
  apply getLE_congr
  intro k hk
  exact hm _ (by omega) (by omega)

/-- The same without a new frame. -/
theorem Tree.onlyEntry_put (hS : Tree d m root) (ht : tableAt m root p = some t)
    (hp : p.length ≤ 3) {w : Nat} : OnlyEntry m (putLE m (t + 8 * i) 8 w) root p i := by
  intro q u j hq hu hne
  have hi : (i : Nat) < 512 := i.isLt
  have hj : (j : Nat) < 512 := j.isLt
  apply getLE_putLE_of_disjoint
  by_cases hqp : q = p
  · subst hqp
    have hut : u = t := Option.some.inj (hu.symm.trans ht)
    have hji : (j : Nat) ≠ i := fun h => (hne.resolve_left (by simp)) (Fin.ext h)
    omega
  · have hut : u ≠ t := by
      rintro rfl
      exact hqp (hS.inj q p u hq hp hu ht)
    have := (hS.frame q u hq hu).apart (hS.frame p t hp ht) hut
    omega

theorem Shape.onlyEntry_put (hS : Shape m root) (ht : tableAt m root p = some t)
    (hp : p.length ≤ 3) {w : Nat} : OnlyEntry m (putLE m (t + 8 * i) 8 w) root p i :=
  hS.tree.onlyEntry_put ht hp

theorem entry_putLE_same {w : Nat} (hw : w < 2 ^ 64) :
    entry (putLE m (t + 8 * i) 8 w) t i = w := by
  rw [entry, getLE_putLE_same]
  exact Nat.mod_eq_of_lt hw

/-! ## Hanging a new table into the tree -/

/-- The table at `p` got a new table `f` under its entry `i`, which had none; the entries of `f`
lead to no further tables. -/
structure Install (m m' : Store) (root : Nat) (p : List Idx) (i : Idx) (t f : Nat) : Prop where
  only : OnlyEntry m m' root p i
  table : tableAt m root p = some t
  short : p.length ≤ 2
  before : child m t i = none
  after : child m' t i = some f
  fresh : FreshFrame m root f
  below : p.length ≤ 1 → ∀ j, child m' f j = none
  small : p.length = 0 → ∀ j, Present (entry m' f j) → ¬ Large (entry m' f j)

theorem Install.table' (h : Install m m' root p i t f) : tableAt m' root p = some t := by
  rw [h.only.tableAt_eq (by have := h.short; omega), h.table]
  intro hs
  have := hs.length_le
  simp at this

theorem Install.installed (h : Install m m' root p i t f) : tableAt m' root (i :: p) = some f :=
  (tableAt_cons h.table').trans h.after

/-- The tables afterwards are those before and the new one. -/
theorem Install.tableAt_iff (h : Install m m' root p i t f) (hq : q.length ≤ 3) :
    tableAt m' root q = some u ↔ tableAt m root q = some u ∨ (q = i :: p ∧ u = f) := by
  by_cases hs : i :: p <:+ q
  · obtain ⟨r, rfl⟩ := hs
    have hold : tableAt m root (r ++ i :: p) = none := tableAt_below_none h.table h.before r
    rw [hold]
    rcases List.eq_nil_or_concat r with rfl | ⟨r', j, rfl⟩
    · rw [List.nil_append, h.installed]
      simp [eq_comm]
    · have hshort : p.length ≤ 1 := by
        simp only [List.concat_eq_append, List.length_append, List.length_cons] at hq
        omega
      have hnew : tableAt m' root ((r'.concat j) ++ i :: p) = none := by
        rw [List.concat_eq_append, List.append_assoc]
        exact tableAt_below_none h.installed (h.below hshort j) r'
      rw [hnew]
      have hne : r'.concat j ++ i :: p ≠ i :: p := by
        intro heq
        have := congrArg List.length heq
        simp at this
        omega
      constructor
      · intro hu
        cases hu
      · rintro (hu | ⟨heq, -⟩)
        · cases hu
        · exact absurd heq hne
  · rw [h.only.tableAt_eq hq hs]
    constructor
    · exact .inl
    · rintro (hu | ⟨rfl, -⟩)
      · exact hu
      · exact absurd List.suffix_rfl hs

theorem Install.tree (h : Install m m' root p i t f) (hd : d ≤ 1) (hS : Tree d m root) :
    Tree d m' root where
  frame := by
    intro q u hq hu
    rcases (h.tableAt_iff hq).mp hu with hu | ⟨-, rfl⟩
    · exact hS.frame q u hq hu
    · exact h.fresh.toTableFrame
  inj := by
    intro q q' u hq hq' hu hu'
    rcases (h.tableAt_iff hq).mp hu with hu | ⟨rfl, rfl⟩ <;>
      rcases (h.tableAt_iff hq').mp hu' with hu' | ⟨rfl, hf⟩
    · exact hS.inj q q' u hq hq' hu hu'
    · exact absurd (hf ▸ hu) (h.fresh.unused q hq)
    · exact absurd hu' (h.fresh.unused q' hq')
    · rfl
  small := by
    intro q u j hq hu hpres
    rcases (h.tableAt_iff (by omega)).mp hu with hu | ⟨rfl, rfl⟩
    · -- the entry that was set is a child, the others are as before
      by_cases hqp : q = p ∧ j = i
      · obtain ⟨rfl, rfl⟩ := hqp
        have hut : u = t := Option.some.inj (hu.symm.trans h.table)
        subst hut
        have hafter := h.after
        unfold child at hafter
        split at hafter
        · next hc => exact hc.2
        · cases hafter
      · have hne : q ≠ p ∨ j ≠ i := by
          by_contra hn
          exact hqp (by simpa [not_or] using hn)
        have he := h.only q u j (by omega) hu hne
        rw [he] at hpres ⊢
        exact hS.small q u j hq hu hpres
    · rw [List.length_cons] at hq
      exact h.small (by omega) j hpres

theorem Install.shape (h : Install m m' root p i t f) (hS : Shape m root) : Shape m' root :=
  (h.tree (Nat.le_refl 1) hS.tree).shape

/-- A page under the new entry is found in the new table. -/
theorem Install.follow_through (h : Install m m' root p i t f) (his : is ≠ []) :
    follow ℓ m' root (p.reverse ++ i :: is) = follow ℓ m' f is := by
  rw [follow_append h.table' (List.cons_ne_nil _ _), follow_child h.after his]

/-- A page under the new entry is found in the new table, every other page as before. -/
theorem Install.follow_cases (ℓ : Nat → List Idx → Option β) (h : Install m m' root p i t f)
    (hlen : js.length = 4) :
    follow ℓ m' root js = follow ℓ m root js ∨
      ∃ is, js = p.reverse ++ i :: is ∧ follow ℓ m' root js = follow ℓ m' f is ∧
        follow ℓ m root js = ℓ (entry m t i) is := by
  rcases h.only.follow_cases ℓ hlen with heq | ⟨is, rfl⟩
  · exact .inl heq
  · have his : is ≠ [] := by
      rintro rfl
      have := h.short
      simp at hlen
      omega
    refine .inr ⟨is, rfl, h.follow_through his, ?_⟩
    rw [follow_append h.table (List.cons_ne_nil _ _), follow_leaf h.before]

theorem Install.resolve_through (h : Install m m' root p i t f) (his : is ≠ []) :
    resolve m' root (p.reverse ++ i :: is) = resolve m' f is := by
  rw [resolve_follow, resolve_follow, h.follow_through his]

theorem Install.resolve_cases (h : Install m m' root p i t f) (hlen : js.length = 4) :
    resolve m' root js = resolve m root js ∨
      ∃ is, js = p.reverse ++ i :: is ∧ resolve m' root js = resolve m' f is ∧
        resolve m root js = leaf m t i is := by
  simp only [resolve_follow]
  exact h.follow_cases leafOf hlen

/-- A frame that stays unused is still fresh. -/
theorem Install.freshFrame (h : Install m m' root p i t f) {g : Nat} (hg : FreshFrame m root g)
    (hgf : g ≠ f) : FreshFrame m' root g := by
  refine ⟨hg.toTableFrame, fun q hq hu => ?_⟩
  rcases (h.tableAt_iff hq).mp hu with hu | ⟨-, h⟩
  · exact hg.unused q hq hu
  · exact hgf h

/-! ## Changes that keep the tree -/

/-- All pages resolve as before, and the tree has its shape. -/
structure Kept (m m' : Store) (root : Nat) : Prop where
  shape : Shape m' root
  pages : ∀ js, js.length = 4 → resolve m' root js = resolve m root js

theorem Kept.trans {m'' : Store} (h : Kept m m' root) (h' : Kept m' m'' root) : Kept m m'' root :=
  ⟨h'.shape, fun js hjs => (h'.pages js hjs).trans (h.pages js hjs)⟩

/-- All pages are found as before, and the tree stays one. -/
structure Same (d : Nat) (ℓ : Nat → List Idx → Option β) (m m' : Store) (root : Nat) : Prop where
  tree : Tree d m' root
  pages : ∀ js, js.length = 4 → follow ℓ m' root js = follow ℓ m root js

theorem Same.trans {m'' : Store} (h : Same d ℓ m m' root) (h' : Same d ℓ m' m'' root) :
    Same d ℓ m m'' root :=
  ⟨h'.tree, fun js hjs => (h'.pages js hjs).trans (h.pages js hjs)⟩

theorem Same.kept (h : Same 1 leafOf m m' root) : Kept m m' root := by
  refine ⟨h.tree.shape, fun js hjs => ?_⟩
  rw [resolve_follow, resolve_follow]
  exact h.pages js hjs

/-- The tree depends on the tables and on the entries of its upper levels. -/
theorem Tree.congr (hS : Tree d m root)
    (htables : ∀ q, q.length ≤ 3 → tableAt m' root q = tableAt m root q) (hd : d ≤ 3)
    (hsmall : ∀ q t i, q.length ≤ d → tableAt m root q = some t → Present (entry m' t i) →
      ¬ Large (entry m' t i)) : Tree d m' root where
  frame := by
    intro q t hq ht
    rw [htables q hq] at ht
    exact hS.frame q t hq ht
  inj := by
    intro q q' t hq hq' ht ht'
    rw [htables q hq] at ht
    rw [htables q' hq'] at ht'
    exact hS.inj q q' t hq hq' ht ht'
  small := by
    intro q t i hq ht
    rw [htables q (by omega)] at ht
    exact hsmall q t i hq ht

theorem Shape.congr (hS : Shape m root)
    (htables : ∀ q, q.length ≤ 3 → tableAt m' root q = tableAt m root q)
    (hsmall : ∀ q t i, q.length ≤ 1 → tableAt m root q = some t → Present (entry m' t i) →
      ¬ Large (entry m' t i)) : Shape m' root :=
  (hS.tree.congr htables (by decide) hsmall).shape

/-- Changing the permissions of an entry that leads to a table changes no page. -/
theorem OnlyEntry.keep (h : OnlyEntry m m' root p i) (hd : d ≤ 3) (hS : Tree d m root)
    (ht : tableAt m root p = some t) (hp : p.length ≤ 2) (hc : child m t i = some u)
    (hc' : child m' t i = some u) :
    (∀ {β : Type*} (ℓ : Nat → List Idx → Option β), Same d ℓ m m' root) ∧
      ∀ q, q.length ≤ 3 → tableAt m' root q = tableAt m root q := by
  -- every child is the old one: that entry by hypothesis, the others were not touched
  have hchild : ∀ q v j, q.length ≤ 3 → tableAt m root q = some v → child m' v j = child m v j := by
    intro q v j hq hv
    by_cases hqp : q = p ∧ j = i
    · obtain ⟨rfl, rfl⟩ := hqp
      obtain rfl : v = t := Option.some.inj (hv.symm.trans ht)
      rw [hc, hc']
    · exact child_congr (h q v j hq hv (by by_contra hn; exact hqp (by simpa [not_or] using hn)))
  have htables : ∀ q, q.length ≤ 3 → tableAt m' root q = tableAt m root q := by
    intro q hq
    induction q with
    | nil => rfl
    | cons j q ih =>
        have hq' : q.length ≤ 3 := Nat.le_of_succ_le hq
        rw [tableAt, tableAt, ih hq']
        cases hv : tableAt m root q with
        | none => rw [Option.bind_none, Option.bind_none]
        | some v => rw [Option.bind_some, Option.bind_some, hchild q v j hq' hv]
  refine ⟨fun ℓ => ⟨hS.congr htables hd ?_, ?_⟩, htables⟩
  · intro q v j hq hv hpres
    by_cases hqp : q = p ∧ j = i
    · obtain ⟨rfl, rfl⟩ := hqp
      obtain rfl : v = t := Option.some.inj (hv.symm.trans ht)
      unfold child at hc'
      split at hc'
      · next hl => exact hl.2
      · cases hc'
    · have he := h q v j (by omega) hv (by by_contra hn; exact hqp (by simpa [not_or] using hn))
      rw [he] at hpres ⊢
      exact hS.small q v j hq hv hpres
  · intro js hjs
    rcases h.follow_cases ℓ hjs with heq | ⟨is, rfl⟩
    · exact heq
    · have his : is ≠ [] := by
        rintro rfl
        simp at hjs
        omega
      have hlen : (i :: p).length + is.length ≤ 4 := by
        simp at hjs
        simp
        omega
      rw [follow_append ((htables p (by omega)).trans ht) (List.cons_ne_nil _ _),
        follow_append ht (List.cons_ne_nil _ _), follow_child hc his, follow_child hc' his]
      exact h.follow_eq ((tableAt_cons ht).trans hc) hlen (avoids_of_length (by simp))

/-- Changing an entry of a page table changes the one page it maps. -/
theorem OnlyEntry.setPage (h : OnlyEntry m m' root p i) (hS : Shape m root)
    (ht : tableAt m root p = some t) (hp : p.length = 3) :
    Shape m' root ∧ resolve m' root (p.reverse ++ [i]) = leaf m' t i [] ∧
      ∀ js, js.length = 4 → js ≠ p.reverse ++ [i] → resolve m' root js = resolve m root js := by
  have htables : ∀ q, q.length ≤ 3 → tableAt m' root q = tableAt m root q := by
    intro q hq
    refine h.tableAt_eq hq fun hs => ?_
    have := hs.length_le
    simp at this
    omega
  refine ⟨hS.congr htables ?_, ?_, ?_⟩
  · intro q v j hq hv hpres
    have he := h q v j (by omega) hv (.inl (by rintro rfl; omega))
    rw [he] at hpres ⊢
    exact hS.small q v j hq hv hpres
  · rw [resolve_append ((htables p (by omega)).trans ht) (List.cons_ne_nil _ _), resolve_single]
  · intro js hjs hne
    rcases h.resolve_cases hjs with heq | ⟨is, rfl⟩
    · exact heq
    · have his : is = [] := by
        apply List.eq_nil_of_length_eq_zero
        simp at hjs
        omega
      rw [his] at hne
      exact absurd rfl hne

/-- Nothing is found in a table of zeroes. -/
theorem follow_zero (hz : ∀ j, entry m f j = 0) (hℓ : ∀ is, ℓ 0 is = none) :
    follow ℓ m f is = none := by
  cases is with
  | nil => rfl
  | cons i is =>
      have hp : ¬ Present (entry m f i) := by rw [hz]; decide
      rw [follow_leaf (child_absent hp), hz, hℓ]

theorem resolve_zero (hz : ∀ j, entry m f j = 0) : resolve m f is = none := by
  rw [resolve_follow]
  exact follow_zero hz fun _ => rfl

theorem child_frame_or {perm : Nat} (he : entry m t i = f ||| perm) (hf : f % 4096 = 0)
    (hp : perm < 128) (hodd : perm % 2 = 1) : child m t i = some f := by
  obtain ⟨hadd, hbits, hsmall⟩ := frame_or hf hp
  have hpres : Present (f ||| perm) := by
    rw [hadd, Present]
    omega
  rw [child, he, if_pos ⟨hpres, hsmall⟩, hbits]

/-- **Hanging in a table.** An entry without a table that gets a fresh frame with permission bits,
together with a write inside that frame, is an installed table. -/
theorem Tree.install (hS : Tree d m root) (ht : tableAt m root p = some t) (hp : p.length ≤ 2)
    (hbefore : child m t i = none) (hf : FreshFrame m root f)
    (hm : ∀ x, x < t + 8 * i ∨ t + 8 * i + 8 ≤ x → x < f ∨ f + 4096 ≤ x → m' x = m x)
    {perm : Nat} (he : entry m' t i = f ||| perm) (hperm : perm < 128) (hodd : perm % 2 = 1)
    (hbelow : p.length ≤ 1 → ∀ j, child m' f j = none)
    (hsmall : p.length = 0 → ∀ j, Present (entry m' f j) → ¬ Large (entry m' f j)) :
    Install m m' root p i t f where
  only := hS.onlyEntry ht (by omega) hf hm
  table := ht
  short := hp
  before := hbefore
  after := child_frame_or he hf.aligned hperm hodd
  fresh := hf
  below := hbelow
  small := hsmall

end NeKernel.HALKit
