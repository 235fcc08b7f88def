import NeKernel.HALKit.PageMap

/-!
# The kernel's tables and what runs on them do

`mm_init_kernel_tables` adds one GiB after the other to an empty tree: it hangs in a directory of
512 large pages under the next entry, below a table it may have to hang in first (`InitInv`). What
it builds is the identity below the limit, rounded up. From there on every run of mapping and
unmapping calls keeps the tables and the page map in step (`paging_refines`).
-/

namespace NeKernel.HALKit

open ByteStore Runs

variable {m : Store} {p p' : Phys} {root limit k : Nat} {i j : Idx} {fs : List Nat}

/-- The number of the page that four indices name. -/
def pageNum : List Idx → Nat
  | [a, b, c, d] => ((a * 512 + b) * 512 + c) * 512 + d
  | _ => 0

/-- The tables after `k` GiB: the identity so far, and no entry for a GiB to come. -/
structure InitInv (m : Store) (root k : Nat) : Prop where
  shape : Shape m root
  pages : ∀ js, js.length = 4 →
    resolve m root js = if pageNum js < k * 2 ^ 18 then some (pageNum js * 4096) else none
  rest : ∀ (i j : Idx) t, tableAt m root [i] = some t → k ≤ i * 512 + j → ¬ Present (entry m t j)

/-- The only table of a tree whose root is zero is the root. -/
theorem tableAt_zero {q : List Idx} {t : Nat}
    (ht : tableAt (fill m root kPageSize 0) root q = some t) : q = [] ∧ t = root := by
  rcases List.eq_nil_or_concat q with rfl | ⟨q, i, rfl⟩
  · exact ⟨rfl, (Option.some.inj ht).symm⟩
  · have habs : ¬ Present (entry (fill m root kPageSize 0) root i) := by
      rw [entry_fill_zero]
      decide
    rw [List.concat_eq_append, tableAt_below_none (p := []) rfl (child_absent habs)] at ht
    cases ht

/-- A zeroed frame is a tree without pages. -/
theorem initInv_zero (hroot : TableFrame root) : InitInv (fill m root kPageSize 0) root 0 := by
  refine ⟨⟨?_, ?_, ?_⟩, ?_, ?_⟩
  · intro q t _ ht
    obtain ⟨-, rfl⟩ := tableAt_zero ht
    exact hroot
  · intro q q' t _ _ ht ht'
    rw [(tableAt_zero ht).1, (tableAt_zero ht').1]
  · intro q t i _ ht hp
    obtain ⟨-, rfl⟩ := tableAt_zero ht
    rw [entry_fill_zero] at hp
    exact absurd hp (by decide)
  · intro js _
    rw [resolve_zero fun j => entry_fill_zero]
    simp
  · intro i j t ht
    exact absurd (tableAt_zero ht).1 (List.cons_ne_nil _ _)

/-- The indices of the `k`-th GiB. -/
theorem idx_gib (hk : k < 2 ^ 17) :
    (idx (k * kGiB) 39 : Nat) = k / 512 ∧ (idx (k * kGiB) 30 : Nat) = k % 512 := by
  simp only [idx_val, kGiB]
  omega

/-- The table of the `k`-th GiB is there, or a frame is missing. -/
theorem ensureTable_spec (hI : InitInv p.mem root k)
    (hA : FreshAnswers p.mem root p.answers) {r : Bool × Phys}
    (hr : ensureTable p (root + 8 * idx (k * kGiB) 39) = r) (htrue : r.1 = true) :
    InitInv r.2.mem root k ∧ FreshAnswers r.2.mem root r.2.answers ∧
      ∃ t, tableAt r.2.mem root [idx (k * kGiB) 39] = some t ∧
        getLE r.2.mem (root + 8 * idx (k * kGiB) 39) 8 &&& kTableMask = t := by
  have hentry : ∀ mem : Store, getLE mem (root + 8 * idx (k * kGiB) 39) 8 =
      entry mem root (idx (k * kGiB) 39) := fun _ => rfl
  subst hr
  unfold ensureTable at htrue ⊢
  simp only [hentry] at htrue ⊢
  split
  · next habs =>
      have habs := and_one_eq_zero.mp habs
      rw [if_pos (and_one_eq_zero.mpr habs)] at htrue
      rcases nextFrame_cases hA with ⟨fs, hnext, -⟩ | ⟨f, fs, hf0, hf, hA', hnext⟩
      · simp only [hnext, ↓reduceIte] at htrue
        cases htrue
      · -- a new table is empty, so no page changes
        simp only [hnext, if_neg hf0]
        obtain ⟨hinst, hK⟩ := hI.shape.install_empty (q := []) rfl (by simp) habs hf
          (show kInitTablePerm < 128 by decide) (by decide)
        have he := entry_putLE_same (m := fill p.mem f kPageSize 0) (t := root)
          (i := idx (k * kGiB) 39) (hf.or_lt (show kInitTablePerm < 128 by decide))
        refine ⟨⟨hK.shape, fun js hjs => (hK.pages js hjs).trans (hI.pages js hjs), ?_⟩,
          hinst.answers hA', f, hinst.installed, ?_⟩
        · intro i j t ht hle
          rcases (hinst.tableAt_iff (by simp)).mp ht with ht | ⟨-, rfl⟩
          · rw [hinst.only [i] t j (by simp) ht (.inl (by simp))]
            exact hI.rest i j t ht hle
          · rw [hf.entry_putLE hI.shape.tree (q := []) rfl (by simp), entry_fill_zero]
            decide
        · rw [he, and_tableMask (hf.or_lt (by decide)), (frame_or hf.aligned (by decide)).2.1]
  · next hpres =>
      have hpres : Present (entry p.mem root (idx (k * kGiB) 39)) := by
        by_contra h
        exact hpres (and_one_eq_zero.mpr h)
      have hsmall := hI.shape.small [] root _ (by simp) rfl hpres
      refine ⟨hI, hA, _, (tableAt_cons rfl).trans (if_pos ⟨hpres, hsmall⟩), ?_⟩
      rw [and_tableMask entry_lt]

/-- The `i`-th large page of the `k`-th GiB. -/
theorem leafEntry_spec (hk : k < 2 ^ 17) (i : Idx) :
    (k * kGiB + i * kLargePage) ||| kLeafPerm < 2 ^ 64 ∧
      Present ((k * kGiB + i * kLargePage) ||| kLeafPerm) ∧
      Large ((k * kGiB + i * kLargePage) ||| kLeafPerm) ∧
      largeBits ((k * kGiB + i * kLargePage) ||| kLeafPerm) = (k * 512 + i) * 2 ^ 21 := by
  have hi : (i : Nat) < 512 := i.isLt
  have hor : (k * kGiB + i * kLargePage) ||| kLeafPerm = k * kGiB + i * kLargePage + kLeafPerm := by
    apply BitMask.or_eq_add (n := 21)
    · simp only [kGiB, kLargePage]
      omega
    · decide
  rw [hor]
  simp only [kGiB, kLargePage, kLeafPerm, Present, Large, largeBits]
  omega

/-- **One GiB more.** -/
theorem initGiB_spec (hI : InitInv p.mem root k) (hk : k < 2 ^ 17)
    (hA : FreshAnswers p.mem root p.answers) {r : Bool × Phys}
    (hr : initGiB p root (k * kGiB) = r) (htrue : r.1 = true) :
    InitInv r.2.mem root (k + 1) ∧ FreshAnswers r.2.mem root r.2.answers := by
  subst hr
  unfold initGiB at htrue ⊢
  rw [cell_eq] at htrue ⊢
  by_cases hens : (ensureTable p (root + 8 * idx (k * kGiB) 39)).1 = false
  · simp only [if_pos hens] at htrue
    rw [hens] at htrue
    cases htrue
  · obtain ⟨hI₁, hA₁, t, ht, hbits⟩ :=
      ensureTable_spec hI hA rfl (by simpa using hens)
    simp only [if_neg hens, hbits, cell_eq] at htrue ⊢
    generalize (ensureTable p (root + 8 * idx (k * kGiB) 39)).2 = p₁ at *
    rcases nextFrame_cases hA₁ with ⟨fs, hnext, -⟩ | ⟨f, fs, hf0, hf, hA', hnext⟩
    · simp only [hnext, ↓reduceIte] at htrue
      cases htrue
    · simp only [hnext, if_neg hf0]
      obtain ⟨hi39, hi30⟩ := idx_gib hk
      have habs : ¬ Present (entry p₁.mem t (idx (k * kGiB) 30)) := by
        refine hI₁.rest _ _ t ht ?_
        rw [hi39, hi30]
        omega
      have hout := hf.cell_outside hI₁.shape.tree ht (by simp) (idx (k * kGiB) 30)
      -- the new directory holds the large pages of this GiB
      have hpd : ∀ j : Idx, entry (putWords (putLE (fill p₁.mem f kPageSize 0)
          (t + 8 * idx (k * kGiB) 30) 8 (f ||| kInitTablePerm)) f 8
          (fun i => (k * kGiB + i * kLargePage) ||| kLeafPerm) kEntries) f j =
          (k * kGiB + j * kLargePage) ||| kLeafPerm := by
        intro j
        have hj : (j : Nat) < kEntries := j.isLt
        rw [entry, getLE_putWords hj]
        exact Nat.mod_eq_of_lt (leafEntry_spec hk j).1
      have hinst : Install p₁.mem (putWords (putLE (fill p₁.mem f kPageSize 0)
          (t + 8 * idx (k * kGiB) 30) 8 (f ||| kInitTablePerm)) f 8
          (fun i => (k * kGiB + i * kLargePage) ||| kLeafPerm) kEntries) root [idx (k * kGiB) 39]
          (idx (k * kGiB) 30) t f := by
        refine hI₁.shape.tree.install ht (by simp) (child_absent habs) hf ?_ ?_
          (show kInitTablePerm < 128 by decide) (by decide) (fun _ j => child_large ?_) (fun h => absurd h (by simp))
        · intro x hx₁ hx₂
          rw [onlyAt_putWords x (by simpa only [kEntries] using hx₂), putLE_apply_of_notMem hx₁]
          exact blit_apply_of_notMem hx₂
        · rw [entry, (onlyAt_putWords (n := kEntries)).getLE_eq (by simp only [kEntries]; omega)]
          exact entry_putLE_same (hf.or_lt (by decide))
        · rw [hpd]
          exact (leafEntry_spec hk j).2.2.1
      refine ⟨⟨hinst.shape hI₁.shape, ?_, ?_⟩, hinst.answers hA'⟩
      · intro js hjs
        obtain ⟨a, b, c, d, rfl⟩ := List.length_eq_four.mp hjs
        have ha : (a : Nat) < 512 := a.isLt
        have hb : (b : Nat) < 512 := b.isLt
        have hc : (c : Nat) < 512 := c.isLt
        have hd : (d : Nat) < 512 := d.isLt
        by_cases hthis : a = idx (k * kGiB) 39 ∧ b = idx (k * kGiB) 30
        · obtain ⟨rfl, rfl⟩ := hthis
          obtain ⟨-, hpres, hlarge, hbase⟩ := leafEntry_spec hk c
          have hres := hinst.resolve_through (List.cons_ne_nil c [d])
          simp only [List.reverse_cons, List.reverse_nil, List.nil_append,
            List.singleton_append] at hres
          rw [hres, resolve_leaf (child_large (by rw [hpd]; exact hlarge)), leaf, hpd,
            if_pos hpres, if_pos hlarge, hbase, if_pos (by simp only [pageNum, hi39, hi30]; omega)]
          simp only [pageNum, hi39, hi30, Option.some.injEq]
          omega
        · rcases hinst.resolve_cases hjs with heq | ⟨is, heq, -⟩
          · rw [heq, hI₁.pages _ hjs]
            have hne : ¬ (k * 2 ^ 18 ≤ pageNum [a, b, c, d] ∧
                pageNum [a, b, c, d] < (k + 1) * 2 ^ 18) := by
              rintro ⟨h₁, h₂⟩
              refine hthis ⟨Fin.ext ?_, Fin.ext ?_⟩ <;> simp only [pageNum] at h₁ h₂ <;> omega
            have hiff : ∀ n, ¬ (k * 2 ^ 18 ≤ n ∧ n < (k + 1) * 2 ^ 18) →
                (n < k * 2 ^ 18 ↔ n < (k + 1) * 2 ^ 18) := by
              intro n hn
              omega
            simp only [hiff _ hne]
          · simp only [List.reverse_cons, List.reverse_nil, List.nil_append,
              List.singleton_append, List.cons.injEq] at heq
            exact absurd ⟨heq.1, heq.2.1⟩ hthis
      · intro i j u hu hle
        rcases (hinst.tableAt_iff (by simp)).mp hu with hu | ⟨heq, -⟩
        · rw [hinst.only [i] u j (by simp) hu ?_]
          · exact hI₁.rest i j u hu (by omega)
          · by_contra hn
            simp only [ne_eq, List.cons.injEq, and_true, not_or, not_not] at hn
            obtain ⟨rfl, rfl⟩ := hn
            omega
        · simp at heq

/-- The number of GiB below the limit, rounded up. -/
def gibs (limit : Nat) : Nat := (limit + (kGiB - 1)) / kGiB

/-- The loop of `mm_init_kernel_tables` ends with all GiB below the limit, when it does not fail. -/
theorem initLoop_spec {fuel : Nat} (hlimit : limit ≤ 2 ^ 47) (hI : InitInv p.mem root k)
    (hk : k ≤ gibs limit) (hA : FreshAnswers p.mem root p.answers)
    (hloop : initLoop root limit fuel (k * kGiB) p = some (true, p')) :
    InitInv p'.mem root (gibs limit) := by
  induction fuel generalizing k p with
  | zero => cases hloop
  | succ fuel ih =>
      unfold initLoop at hloop
      split at hloop
      · next hlt =>
          have hk17 : k < 2 ^ 17 ∧ k + 1 ≤ gibs limit ∧ u64 (k * kGiB + kGiB) = (k + 1) * kGiB := by
            simp only [gibs, kGiB, u64] at *
            omega
          simp only at hloop
          split at hloop
          · next hfail =>
              have hfst := congrArg Prod.fst (Option.some.inj hloop)
              rw [hfail] at hfst
              cases hfst
          · next hgo =>
              obtain ⟨hI', hA'⟩ := initGiB_spec hI hk17.1 hA rfl (by simpa using hgo)
              rw [hk17.2.2] at hloop
              exact ih hI' hk17.2.1 hA' hloop
      · next hge =>
          cases hloop
          have : k = gibs limit := by
            simp only [gibs, kGiB] at *
            omega
          exact this ▸ hI

/-- The loop has fuel enough for every limit the address space allows. -/
theorem initLoop_total (root : Nat) {fuel : Nat} (hlimit : limit ≤ 2 ^ 47) (hfuel : gibs limit < k + fuel)
    (hk : k ≤ gibs limit) : ∃ r, initLoop root limit fuel (k * kGiB) p = some r := by
  induction fuel generalizing k p with
  | zero => omega
  | succ fuel ih =>
      unfold initLoop
      split
      · next hlt =>
          have hk17 : k + 1 ≤ gibs limit ∧ u64 (k * kGiB + kGiB) = (k + 1) * kGiB := by
            simp only [gibs, kGiB, u64] at *
            omega
          simp only
          split
          · exact ⟨_, rfl⟩
          · rw [hk17.2]
            exact ih (by omega) hk17.1
      · exact ⟨_, rfl⟩

/-- `mm_init_kernel_tables` returns, for every limit the address space allows. -/
theorem mmInitKernelTables_total (hlimit : limit ≤ 2 ^ 47) :
    ∃ r, mmInitKernelTables p limit = some r := by
  unfold mmInitKernelTables
  simp only
  split
  · exact ⟨_, rfl⟩
  · have hfuel : gibs limit < 0 + initFuel := by
      simp only [gibs, kGiB, initFuel]
      omega
    obtain ⟨r, hr⟩ := initLoop_total (nextFrame p).1 (p := (nextFrame p).2) hlimit hfuel
      (Nat.zero_le _)
    rw [Nat.zero_mul] at hr
    rw [hr]
    exact ⟨_, rfl⟩

/-- What the allocator may answer before there are tables: table frames, each once, and `0`. -/
structure InitAnswers (fs : List Nat) : Prop where
  frame : ∀ f ∈ fs, f ≠ 0 → TableFrame f
  once : fs.Pairwise fun f g => f = 0 ∨ f ≠ g

/-- The identity below the limit, rounded up to a GiB. -/
def identityMap (limit : Nat) : PageMap := fun pg =>
  if pg * 4096 < gibs limit * kGiB then some (pg * 4096) else none

theorem pageNum_pageIdx (va : Nat) : pageNum (pageIdx va) = pageOf va := by
  simp only [pageIdx, pageNum, idx_val, pageOf]
  omega

/-- **`mm_init_kernel_tables` builds the identity.** -/
theorem mmInitKernelTables_spec (hlimit : limit ≤ 2 ^ 47) (hA : InitAnswers p.answers)
    (hinit : mmInitKernelTables p limit = some (root, p')) (hroot : root ≠ 0) :
    Holds p'.mem root (identityMap limit) := by
  obtain ⟨mem, fs⟩ := p
  unfold mmInitKernelTables at hinit
  cases fs with
  | nil =>
      cases hinit
      exact absurd rfl hroot
  | cons f fs =>
      by_cases hf0 : f = 0
      · simp only [nextFrame, if_pos hf0, ↓reduceIte] at hinit
        cases hinit
        exact absurd rfl hroot
      · simp only [nextFrame, if_neg hf0, Option.map_eq_some_iff, Prod.mk.injEq] at hinit
        obtain ⟨⟨b, q⟩, hloop, hb, rfl⟩ := hinit
        obtain ⟨honce, hrest⟩ := List.pairwise_cons.mp hA.once
        have hframe : TableFrame f := hA.frame f List.mem_cons_self hf0
        cases b with
        | false => exact absurd hb.symm hroot
        | true =>
            obtain rfl : f = root := hb
            have hI := initInv_zero (m := mem) hframe
            -- the root is the first answer, and it comes once
            have hfresh : FreshAnswers (fill mem f kPageSize 0) f fs := by
              refine ⟨fun g hg hg0 => ⟨hA.frame g (List.mem_cons_of_mem _ hg) hg0, ?_⟩, hrest⟩
              intro q hq hu
              exact (honce g hg).elim hf0 fun hne => hne (tableAt_zero hu).2.symm
            have hfin := initLoop_spec (p := ⟨fill mem f kPageSize 0, fs⟩) (k := 0) hlimit hI
              (Nat.zero_le _) hfresh (by rwa [Nat.zero_mul])
            refine ⟨hfin.shape, fun va => ?_⟩
            rw [hfin.pages _ pageIdx_length, pageNum_pageIdx, identityMap]
            have hiff : pageOf va < gibs limit * 2 ^ 18 ↔
                pageOf va * 4096 < gibs limit * kGiB := by
              simp only [kGiB]
              omega
            simp only [hiff]

/-! ## Runs -/

/-- The memory the tables live in, and the page map that goes with it. -/
structure PagingRun where
  mem : Store
  map : PageMap

inductive PagingCall where
  | map (virtualAddress physicalAddress flags : Nat) (answers : List Nat)
  | unmap (virtualAddress : Nat)

/-- Physical addresses fit the entries, and the frames a call is given are fresh. -/
def PagingOk (root : Nat) (s : PagingRun) : PagingCall → Prop
  | .map _ pa _ answers => pa < 2 ^ 52 ∧ FreshAnswers s.mem root answers
  | .unmap _ => True

/-- One call on the tables, and what it stands for on the map. -/
def pagingApply (root : Nat) (s : PagingRun) : PagingCall → PagingRun
  | .map va pa flags answers =>
      let r := mmMapPageIn ⟨s.mem, answers⟩ root va pa flags
      { mem := r.2.mem, map := mapSpec s.map va pa flags r.1 }
  | .unmap va =>
      { mem := (mmUnmapPage ⟨s.mem, []⟩ root va).2.mem, map := unmapSpec s.map s.mem root va }

def PagingStep (root : Nat) (s : PagingRun) (c : PagingCall) (s' : PagingRun) : Prop :=
  s' = pagingApply root s c

theorem holds_step {s s' : PagingRun} {c : PagingCall} (h : Holds s.mem root s.map)
    (hok : PagingOk root s c) (hst : PagingStep root s c s') : Holds s'.mem root s'.map := by
  subst hst
  cases c with
  | map va pa flags answers => exact mmMapPageIn_spec h hok.2 hok.1 rfl
  | unmap va => exact (mmUnmapPage_spec h rfl).1

/-- **Page tables refine a map from pages to frames.** Start from the tables that
`mm_init_kernel_tables` built and the identity below its limit; let every successful mapping call
set its page, every unmapping call that reaches a present entry clear its page, and every other
call change nothing. Then after every run `mm_get_page_addr` reads the map, and an unmapping call
returns the frame its page held, or `0` when its walk reaches no present entry. -/
theorem paging_refines (hlimit : limit ≤ 2 ^ 47) (hA : InitAnswers p.answers)
    (hinit : mmInitKernelTables p limit = some (root, p')) (hroot : root ≠ 0) {s : PagingRun}
    (hr : Reach (PagingStep root) (PagingOk root) { mem := p'.mem, map := identityMap limit } s) :
    (∀ va, mmGetPageAddr s.mem root va = s.map.addr va) ∧
      ∀ va, (walkReaches s.mem root va = true →
          s.map (pageOf va) = some (mmUnmapPage ⟨s.mem, []⟩ root va).1) ∧
        (walkReaches s.mem root va = false → (mmUnmapPage ⟨s.mem, []⟩ root va).1 = 0) := by
  have h : Holds s.mem root s.map :=
    hr.inv (mmInitKernelTables_spec hlimit hA hinit hroot) fun _ _ _ hI hok hst =>
      holds_step hI hok hst
  exact ⟨h.read, fun va => (mmUnmapPage_spec h rfl).2⟩

/-- Tables for the limit `0`: a root and nothing under it. -/
theorem mmInitKernelTables_empty : mmInitKernelTables ⟨zeros, [0x1000]⟩ 0 =
    some (0x1000, ⟨fill zeros 0x1000 kPageSize 0, []⟩) := rfl

/-- One page mapped in the empty tables, through three fresh frames. -/
def onePage : PagingRun :=
  pagingApply 0x1000 { mem := fill zeros 0x1000 kPageSize 0, map := identityMap 0 }
    (.map 0x400000 0x5000 6 [0x2000, 0x3000, 0x4000])

theorem onePage_reached : Reach (PagingStep 0x1000) (PagingOk 0x1000)
    { mem := fill zeros 0x1000 kPageSize 0, map := identityMap 0 } onePage := by
  refine .step (.map 0x400000 0x5000 6 [0x2000, 0x3000, 0x4000]) .init ⟨by decide, ?_, by decide⟩ rfl
  intro f hf _
  simp only [List.mem_cons, List.not_mem_nil, or_false] at hf
  refine ⟨⟨?_, ?_, ?_⟩, fun q _ hq => ?_⟩
  · rcases hf with rfl | rfl | rfl <;> rfl
  · rcases hf with rfl | rfl | rfl <;> decide
  · rcases hf with rfl | rfl | rfl <;> decide
  · have := (tableAt_zero hq).2
    omega

theorem paging_refines_onePage : onePage.map (pageOf 0x400123) = some 0x5000 ∧
    mmGetPageAddr onePage.mem 0x1000 0x400123 = 0x5123 := by
  have hmap : onePage.map (pageOf 0x400123) = some 0x5000 := by decide +kernel
  have hframe : ∀ f ∈ [0x1000], f ≠ 0 → TableFrame f := by
    intro f hf _
    rw [List.mem_singleton.mp hf]
    exact ⟨rfl, by decide, by decide⟩
  obtain ⟨hread, -⟩ := paging_refines (p := ⟨zeros, [0x1000]⟩) (show 0 ≤ 2 ^ 47 by decide)
    ⟨hframe, List.pairwise_singleton _ _⟩ mmInitKernelTables_empty (by decide) onePage_reached
  refine ⟨hmap, ?_⟩
  rw [hread, PageMap.addr, hmap]

end NeKernel.HALKit
