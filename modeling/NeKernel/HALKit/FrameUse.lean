import NeKernel.HALKit.PageMap
import Mathlib.Algebra.Order.BigOperators.Group.Finset
import Mathlib.Data.Fintype.Vector
import Mathlib.Data.Fintype.BigOperators
import Mathlib.Data.Set.Defs

/-!
# The frames a call takes

A walk that allocates hangs frames into the tree and touches no others (`Grown`): every frame it was
given is a table afterwards, every new table is one of them, and a frame that is neither a table
nor one the allocator may still give keeps its bytes. A walk that reaches the end depends on the
answers it used, not on those behind them (`walkLevels_uses`), and it reaches the end when there are
three frames for it (`walkLevels_enough`).
-/

namespace NeKernel.HALKit

open ByteStore

variable {m m' : Store} {p p' p'' : Phys} {root t u f g va shift : Nat} {q : List Idx} {i : Idx}
  {alloc : Bool}

/-! ## Tables -/

/-- The frames that are tables. -/
def tables (m : Store) (root : Nat) : Set Nat := {t | ∃ q, q.length ≤ 3 ∧ tableAt m root q = some t}

theorem FreshFrame.notMem (hf : FreshFrame m root f) : f ∉ tables m root :=
  fun ⟨q, hq, ht⟩ => hf.unused q hq ht

/-- A frame that is no table is fresh. -/
theorem TableFrame.fresh (hf : TableFrame f) (hnot : f ∉ tables m root) : FreshFrame m root f :=
  ⟨hf, fun q hq ht => hnot ⟨q, hq, ht⟩⟩

theorem tables_congr (h : ∀ q, q.length ≤ 3 → tableAt m' root q = tableAt m root q) :
    tables m' root = tables m root := by
  ext t
  constructor
  · rintro ⟨q, hq, ht⟩
    exact ⟨q, hq, (h q hq).symm.trans ht⟩
  · rintro ⟨q, hq, ht⟩
    exact ⟨q, hq, (h q hq).trans ht⟩

/-- A frame that is no table lies apart from every table. -/
theorem Shape.apart (hS : Shape m root) (ht : t ∈ tables m root) (hg : TableFrame g)
    (hnot : g ∉ tables m root) : g + 4096 ≤ t ∨ t + 4096 ≤ g := by
  obtain ⟨q, hq, htq⟩ := ht
  exact hg.apart (hS.frame q t hq htq) fun h => hnot (h ▸ ⟨q, hq, htq⟩)

theorem entry_agree (h : AgreeOn m m' t kPageSize) : entry m' t i = entry m t i := by
  have hi : (i : Nat) < 512 := i.isLt
  apply (AgreeOn.getLE_eq (h.mono _ _)).symm
  · omega
  · simp only [kPageSize]
    omega

/-- The tables lead where they led when their own bytes are the same. -/
theorem tableAt_agree (h : ∀ t ∈ tables m root, AgreeOn m m' t kPageSize) (hq : q.length ≤ 3) :
    tableAt m' root q = tableAt m root q := by
  induction q with
  | nil => rfl
  | cons i q ih =>
      have hq' : q.length ≤ 3 := Nat.le_of_succ_le hq
      rw [tableAt, tableAt, ih hq']
      cases ht : tableAt m root q with
      | none => rw [Option.bind_none, Option.bind_none]
      | some t =>
          rw [Option.bind_some, Option.bind_some, child_congr (entry_agree (h t ⟨q, hq', ht⟩))]

/-- So do the pages. -/
theorem resolve_agree (h : ∀ t ∈ tables m root, AgreeOn m m' t kPageSize) {js : List Idx}
    (ht : tableAt m root q = some t) (hlen : q.length + js.length ≤ 4) :
    resolve m' t js = resolve m t js := by
  induction js generalizing q t with
  | nil => rfl
  | cons j js ih =>
      rw [List.length_cons] at hlen
      have he : entry m' t j = entry m t j := entry_agree (h t ⟨q, by omega, ht⟩)
      cases hc : child m t j with
      | none => rw [resolve_leaf hc, resolve_leaf ((child_congr he).trans hc), leaf_congr he]
      | some u =>
          by_cases hjs : js = []
          · rw [hjs, resolve_single, resolve_single, leaf_congr he]
          · rw [resolve_child hc hjs, resolve_child ((child_congr he).trans hc) hjs]
            exact ih ((tableAt_cons ht).trans hc) (by rw [List.length_cons]; omega)

/-- **Bytes outside the tables** do not matter to the map. -/
theorem Holds.agree {A : PageMap} (h : Holds m root A)
    (hm : ∀ t ∈ tables m root, AgreeOn m m' t kPageSize) : Holds m' root A := by
  have htables : ∀ q, q.length ≤ 3 → tableAt m' root q = tableAt m root q :=
    fun q hq => tableAt_agree hm hq
  refine ⟨h.shape.congr htables fun q t i hq ht hp => ?_, fun va => ?_⟩
  · have he : entry m' t i = entry m t i := entry_agree (hm t ⟨q, by omega, ht⟩)
    rw [he] at hp ⊢
    exact h.shape.small q t i hq ht hp
  · rw [resolve_agree hm (q := []) rfl (by rw [pageIdx_length]; decide), h.pages]

/-- A write inside a frame that is no table leaves the tables alone. -/
theorem Shape.agree_frame (hS : Shape m root) (hg : TableFrame g) (hnot : g ∉ tables m root)
    (hm : OnlyAt m m' g kPageSize) : ∀ t ∈ tables m root, AgreeOn m m' t kPageSize := by
  intro t ht
  have := hS.apart ht hg hnot
  apply AgreeOn.symm
  apply hm.agreeOn
  simp only [kPageSize]
  omega

/-! ## There are always frames -/

/-- The paths of length `k`. -/
@[irreducible] def pathsOf (k : Nat) : Finset (List Idx) :=
  (Finset.univ : Finset (List.Vector Idx k)).image List.Vector.toList

theorem mem_pathsOf (q : List Idx) : q ∈ pathsOf q.length := by
  unfold pathsOf
  exact Finset.mem_image_of_mem List.Vector.toList (Finset.mem_univ ⟨q, rfl⟩)

theorem card_pathsOf (k : Nat) : (pathsOf k).card ≤ 512 ^ k := by
  unfold pathsOf
  calc ((Finset.univ : Finset (List.Vector Idx k)).image List.Vector.toList).card
      ≤ (Finset.univ : Finset (List.Vector Idx k)).card := Finset.card_image_le
    _ = 512 ^ k := by rw [Finset.card_univ, card_vector, Fintype.card_fin]

/-- The tables, as a finite set; `0` stands for the paths that lead nowhere. -/
@[irreducible] def tableSet (m : Store) (root : Nat) : Finset Nat :=
  ((Finset.range 4).biUnion pathsOf).image fun q => (tableAt m root q).getD 0

theorem mem_tableSet (ht : t ∈ tables m root) : t ∈ tableSet m root := by
  obtain ⟨q, hq, htq⟩ := ht
  unfold tableSet
  refine Finset.mem_image.mpr ⟨q, Finset.mem_biUnion.mpr ⟨q.length, ?_, mem_pathsOf q⟩, ?_⟩
  · exact Finset.mem_range.mpr (Nat.lt_succ_of_le hq)
  · rw [htq, Option.getD_some]

/-- A tree of four levels has far fewer tables than there are frames. -/
theorem card_tableSet (m : Store) (root : Nat) : (tableSet m root).card ≤ 2 ^ 29 := by
  have hlevel : ∀ k ∈ Finset.range 4, (pathsOf k).card ≤ 512 ^ 3 := by
    intro k hk
    have hk3 : k ≤ 3 := Nat.le_of_lt_succ (Finset.mem_range.mp hk)
    exact (card_pathsOf k).trans (Nat.pow_le_pow_right (by decide) hk3)
  have hpaths := Finset.card_biUnion_le_card_mul (Finset.range 4) pathsOf (512 ^ 3) hlevel
  rw [Finset.card_range] at hpaths
  unfold tableSet
  exact Finset.card_image_le.trans hpaths

/-- The frames of the first `n` pages behind the first page. -/
def frameSet (n : Nat) : Finset Nat := (Finset.range n).image fun k => (k + 1) * 4096

theorem mem_frameSet {n : Nat} (hn : n < 2 ^ 40 - 1) (hf : f ∈ frameSet n) : TableFrame f := by
  obtain ⟨k, hk, rfl⟩ := Finset.mem_image.mp hf
  have := Finset.mem_range.mp hk
  exact ⟨by omega, by omega, by omega⟩

theorem card_frameSet (n : Nat) : (frameSet n).card = n := by
  have hinj : Function.Injective fun k : Nat => (k + 1) * 4096 := fun a b hab => by
    have : (a + 1) * 4096 = (b + 1) * 4096 := hab
    omega
  rw [frameSet, Finset.card_image_of_injective _ hinj, Finset.card_range]

/-- **There are always frames** for an allocator to give, besides any few that are left out. -/
theorem exists_freshAnswers (m : Store) (root : Nat) (out : Finset Nat) {n : Nat}
    (hn : n + out.card ≤ 2 ^ 39) :
    ∃ L : List Nat, L.length = n ∧ FreshAnswers m root L ∧ ∀ f ∈ L, f ≠ 0 ∧ f ∉ out := by
  obtain ⟨N, hN, hlt⟩ : ∃ N, n + out.card + 2 ^ 29 ≤ N ∧ N < 2 ^ 40 - 1 :=
    ⟨n + out.card + 2 ^ 29, Nat.le_refl _, by omega⟩
  have hroom : n ≤ (frameSet N \ (tableSet m root ∪ out)).card := by
    have h₁ := Finset.le_card_sdiff (tableSet m root ∪ out) (frameSet N)
    have h₂ := Finset.card_union_le (tableSet m root) out
    have h₃ := card_tableSet m root
    rw [card_frameSet] at h₁
    omega
  obtain ⟨s, hs, hsn⟩ := Finset.exists_subset_card_eq hroom
  have hmem : ∀ f ∈ s.toList, f ∈ frameSet N ∧ f ∉ tableSet m root ∧ f ∉ out := by
    intro f hf
    have hin := hs (Finset.mem_toList.mp hf)
    rw [Finset.mem_sdiff, Finset.mem_union, not_or] at hin
    exact hin
  refine ⟨s.toList, by rw [Finset.length_toList, hsn], ⟨fun f hf _ => ?_, ?_⟩, fun f hf => ?_⟩
  · obtain ⟨hin, hnot, -⟩ := hmem f hf
    exact (mem_frameSet hlt hin).fresh fun ht => hnot (mem_tableSet ht)
  · exact s.nodup_toList.imp fun hne => .inr hne
  · obtain ⟨hin, -, hnot⟩ := hmem f hf
    exact ⟨(mem_frameSet hlt hin).ne_zero, hnot⟩

/-! ## What a call leaves behind -/

/-- What happens to the tables between `p` and `p'`: they stay, and new ones come from the
allocator. -/
structure Later (root : Nat) (p p' : Phys) : Prop where
  old : ∀ q t, q.length ≤ 3 → tableAt p.mem root q = some t → tableAt p'.mem root q = some t
  new : ∀ t ∈ tables p'.mem root, t ∈ tables p.mem root ∨ t ∈ p.answers
  answers : ∀ f ∈ p'.answers, f ∈ p.answers

theorem Later.refl : Later root p p := ⟨fun _ _ _ ht => ht, fun _ ht => .inl ht, fun _ hf => hf⟩

theorem Later.trans (h : Later root p p') (h' : Later root p' p'') : Later root p p'' where
  old := fun q t hq ht => h'.old q t hq (h.old q t hq ht)
  new := by
    intro t ht
    rcases h'.new t ht with ht | ht
    · exact h.new t ht
    · exact .inr (h.answers t ht)
  answers := fun f hf => h.answers f (h'.answers f hf)

theorem Later.tables (h : Later root p p') : ∀ t ∈ tables p.mem root, t ∈ tables p'.mem root :=
  fun _ ⟨q, hq, ht⟩ => ⟨q, hq, h.old q _ hq ht⟩

/-- A frame that is no table and not among the answers stays so. -/
theorem Later.notMem (h : Later root p p') (hnot : g ∉ HALKit.tables p.mem root)
    (hg : g ∉ p.answers) : g ∉ HALKit.tables p'.mem root ∧ g ∉ p'.answers :=
  ⟨fun ht => (h.new g ht).elim hnot hg, fun hin => hg (h.answers g hin)⟩

/-- Bytes outside the tables changed, and no answer was used. -/
theorem Later.of_agree (as : List Nat)
    (h : ∀ t ∈ HALKit.tables m root, AgreeOn m m' t kPageSize) :
    Later root ⟨m, as⟩ ⟨m', as⟩ where
  old := fun _ _ hq ht => (tableAt_agree h hq).trans ht
  new := fun _ ht => .inl (tables_congr (fun _ hq => tableAt_agree h hq) ▸ ht)
  answers := fun _ hf => hf

/-- Between `p` and `p'` frames became tables, and nothing else happened to a frame. -/
structure Grown (root : Nat) (p p' : Phys) : Prop extends Later root p p' where
  fresh : FreshAnswers p'.mem root p'.answers
  spent : ∃ used, p.answers = used ++ p'.answers ∧ ∀ f ∈ used, f ≠ 0 → f ∈ tables p'.mem root
  rest : ∀ g, TableFrame g → g ∉ tables p.mem root → g ∉ p.answers →
    AgreeOn p.mem p'.mem g kPageSize

theorem Grown.refl (hA : FreshAnswers p.mem root p.answers) : Grown root p p where
  toLater := Later.refl
  fresh := hA
  spent := ⟨[], rfl, fun _ hf => absurd hf List.not_mem_nil⟩
  rest := fun _ _ _ _ _ _ _ => rfl

theorem Grown.trans (h : Grown root p p') (h' : Grown root p' p'') : Grown root p p'' where
  toLater := h.toLater.trans h'.toLater
  fresh := h'.fresh
  spent := by
    obtain ⟨used, heq, hused⟩ := h.spent
    obtain ⟨used', heq', hused'⟩ := h'.spent
    refine ⟨used ++ used', by rw [heq, heq', List.append_assoc], fun f hf hf0 => ?_⟩
    rcases List.mem_append.mp hf with hf | hf
    · exact h'.tables f (hused f hf hf0)
    · exact hused' f hf hf0
  rest := by
    intro g hg hnot hans
    obtain ⟨hnot', hans'⟩ := h.notMem hnot hans
    exact (h.rest g hg hnot hans).trans (h'.rest g hg hnot' hans')

/-- An answer of `0` that is used up. -/
theorem Grown.skip {fs : List Nat} (hA : FreshAnswers m root (0 :: fs)) :
    Grown root ⟨m, 0 :: fs⟩ ⟨m, fs⟩ where
  old := fun _ _ _ ht => ht
  new := fun _ ht => .inl ht
  answers := fun _ hf => List.mem_cons_of_mem 0 hf
  fresh := hA.tail
  spent := ⟨[0], rfl, fun _ hf hf0 => absurd (List.mem_singleton.mp hf) hf0⟩
  rest := fun _ _ _ _ _ _ _ => rfl

/-- A change of the tables' own bytes that leads to the same tables. -/
theorem Grown.retouch {as : List Nat} (hS : Shape m root) (hA : FreshAnswers m root as)
    (htables : ∀ q, q.length ≤ 3 → tableAt m' root q = tableAt m root q)
    (ht : t ∈ HALKit.tables m root) (hm : OnlyAt m m' (t + 8 * i) 8) :
    Grown root ⟨m, as⟩ ⟨m', as⟩ where
  old := fun q t hq h => (htables q hq).trans h
  new := fun t h => .inl (tables_congr htables ▸ h)
  answers := fun _ hf => hf
  fresh := hA.congr htables
  spent := ⟨[], rfl, fun _ hf => absurd hf List.not_mem_nil⟩
  rest := by
    intro g hg hnot _ x hx₁ hx₂
    have hi : (i : Nat) < 512 := i.isLt
    have := hS.apart ht hg hnot
    simp only [kPageSize] at hx₂
    exact (hm x (by omega)).symm

/-- A table that is hung in. -/
theorem Install.grown {fs : List Nat} (hI : Install m m' root q i t f)
    (hS : Shape m root) (hA : FreshAnswers m root (f :: fs))
    (hm : ∀ x, x < t + 8 * i ∨ t + 8 * i + 8 ≤ x → x < f ∨ f + 4096 ≤ x → m' x = m x) :
    Grown root ⟨m, f :: fs⟩ ⟨m', fs⟩ where
  old := fun _ _ hq ht => (hI.tableAt_iff hq).mpr (.inl ht)
  new := by
    rintro u ⟨q', hq', hu⟩
    rcases (hI.tableAt_iff hq').mp hu with hu | ⟨-, rfl⟩
    · exact .inl ⟨q', hq', hu⟩
    · exact .inr List.mem_cons_self
  answers := fun _ hf => List.mem_cons_of_mem f hf
  fresh := hI.answers hA
  spent := by
    refine ⟨[f], rfl, fun g hg _ => ?_⟩
    rw [List.mem_singleton.mp hg]
    have := hI.short
    exact ⟨i :: q, by rw [List.length_cons]; omega, hI.installed⟩
  rest := by
    intro g hg hnot hans x hx₁ hx₂
    have hi : (i : Nat) < 512 := i.isLt
    have hshort := hI.short
    have hcell := hS.apart ⟨q, by omega, hI.table⟩ hg hnot
    have hframe := hg.apart hI.fresh.toTableFrame fun h => hans (h ▸ List.mem_cons_self)
    simp only [kPageSize] at hx₂
    exact (hm x (by omega) (by omega)).symm

/-! ## Walks -/

/-- One level of a walk. -/
theorem walkLevel_grown (alloc : Bool) (hS : Shape p.mem root)
    (ht : tableAt p.mem root q = some t) (hq : q.length ≤ 2) (hshift : q.length = 2 → shift = 21)
    (hA : FreshAnswers p.mem root p.answers) :
    Grown root p (walkLevel p (t + 8 * i) shift alloc).2 := by
  obtain ⟨m, as⟩ := p
  cases hc : child m t i with
  | some u =>
      obtain ⟨m', hwalk, -, htables, hm⟩ := walkLevel_follow shift alloc hS ht hq hc
      rw [hwalk]
      exact Grown.retouch hS hA htables ⟨q, by omega, ht⟩ hm
  | none =>
      cases alloc with
      | false =>
          rw [walkLevel_noAlloc (p := ⟨m, as⟩) hc]
          exact Grown.refl hA
      | true =>
          rcases as with _ | ⟨f, fs⟩
          · rw [walkLevel_noFrame (p := ⟨m, []⟩) hc rfl]
            exact Grown.refl hA
          · by_cases hf0 : f = 0
            · subst hf0
              rw [walkLevel_noFrame (p := ⟨m, 0 :: fs⟩) hc rfl]
              exact Grown.skip hA
            · obtain ⟨m', hwalk, hI, -, hm⟩ := walkLevel_hang hS ht hq hshift hc hf0
                (hA.fresh f List.mem_cons_self hf0)
              rw [hwalk]
              exact hI.grown hS hA hm

/-- A call that returns `a` because of the answers it used, whatever is behind them. -/
def Uses {α : Type} (call : Phys → α × Phys) (p : Phys) (a : α) : Prop :=
  ∀ p', call p = (a, p') → ∃ used, p.answers = used ++ p'.answers ∧
    ∀ X, call ⟨p.mem, used ++ X⟩ = (a, ⟨p'.mem, X⟩)

theorem walkLevel_uses (alloc : Bool) (hS : Shape p.mem root)
    (ht : tableAt p.mem root q = some t) (hq : q.length ≤ 2) (hshift : q.length = 2 → shift = 21)
    (hA : FreshAnswers p.mem root p.answers) (u : Nat) :
    Uses (fun p => walkLevel p (t + 8 * i) shift alloc) p (some u) := by
  obtain ⟨m, as⟩ := p
  intro p' hr
  simp only at hr
  cases hc : child m t i with
  | some v =>
      obtain ⟨m', hwalk, -⟩ := walkLevel_follow shift alloc hS ht hq hc
      rw [hwalk] at hr
      cases hr
      exact ⟨[], rfl, hwalk⟩
  | none =>
      cases alloc with
      | false =>
          rw [walkLevel_noAlloc (p := ⟨m, as⟩) hc] at hr
          cases hr
      | true =>
          rcases as with _ | ⟨f, fs⟩
          · rw [walkLevel_noFrame (p := ⟨m, []⟩) hc rfl] at hr
            cases hr
          · by_cases hf0 : f = 0
            · subst hf0
              rw [walkLevel_noFrame (p := ⟨m, 0 :: fs⟩) hc rfl] at hr
              cases hr
            · obtain ⟨m', hwalk, -⟩ := walkLevel_hang hS ht hq hshift hc hf0
                (hA.fresh f List.mem_cons_self hf0)
              rw [hwalk] at hr
              cases hr
              exact ⟨[u], rfl, hwalk⟩

/-- A level that may allocate goes on when there is a frame for it. -/
theorem walkLevel_enough (hS : Shape p.mem root) (ht : tableAt p.mem root q = some t)
    (hq : q.length ≤ 2) (hshift : q.length = 2 → shift = 21)
    (hA : FreshAnswers p.mem root p.answers) (h0 : ∀ f ∈ p.answers, f ≠ 0)
    (hlen : 1 ≤ p.answers.length) :
    ∃ u p', walkLevel p (t + 8 * i) shift true = (some u, p') ∧
      p.answers.length ≤ p'.answers.length + 1 := by
  obtain ⟨m, as⟩ := p
  cases hc : child m t i with
  | some v =>
      obtain ⟨m', hwalk, -⟩ := walkLevel_follow shift true hS ht hq hc
      exact ⟨v, ⟨m', as⟩, hwalk as, Nat.le_succ _⟩
  | none =>
      rcases as with _ | ⟨f, fs⟩
      · cases hlen
      · have hf0 := h0 f List.mem_cons_self
        obtain ⟨m', hwalk, -⟩ := walkLevel_hang hS ht hq hshift hc hf0
          (hA.fresh f List.mem_cons_self hf0)
        exact ⟨f, ⟨m', fs⟩, hwalk fs, Nat.le_refl _⟩

/-- The shift of the last level is the one of page directories. -/
theorem walkShifts_last {shifts : List Nat} (hsuf : shift :: shifts <:+ walkShifts)
    (hlen : q.length + (shifts.length + 1) = 3) (hq : q.length = 2) : shift = 21 := by
  rw [walkShift_eq hsuf (n := q.length) (by omega), hq]

/-- The levels of a walk, from the table at `q` on. -/
theorem walkLevels_grown (va : Nat) (alloc : Bool) {shifts : List Nat}
    (hsuf : shifts <:+ walkShifts) (hlen : q.length + shifts.length = 3) (hS : Shape p.mem root)
    (ht : tableAt p.mem root q = some t) (hA : FreshAnswers p.mem root p.answers) :
    Grown root p (walkLevels va alloc shifts p t).2 := by
  induction shifts generalizing p t q with
  | nil => exact Grown.refl hA
  | cons shift shifts ih =>
      rw [List.length_cons] at hlen
      have hshift := walkShifts_last hsuf hlen
      have hg := walkLevel_grown (i := idx va shift) alloc hS ht (by omega) hshift hA
      obtain ⟨hK, hA', hnext⟩ :=
        walkLevel_spec (i := idx va shift) alloc hS ht (by omega) hshift hA rfl
      unfold walkLevels
      rw [cell_eq]
      rcases hlev : walkLevel p (t + 8 * idx va shift) shift alloc with ⟨_ | u, p'⟩
      · rw [hlev] at hg
        exact hg
      · rw [hlev] at hg hK hA' hnext
        apply hg.trans
        apply ih ((List.suffix_cons shift shifts).trans hsuf) _ hK.shape (hnext u rfl) hA'
        rw [List.length_cons]
        omega

theorem walkLevels_uses (va : Nat) (alloc : Bool) {shifts : List Nat}
    (hsuf : shifts <:+ walkShifts) (hlen : q.length + shifts.length = 3) (hS : Shape p.mem root)
    (ht : tableAt p.mem root q = some t) (hA : FreshAnswers p.mem root p.answers) (v : Nat) :
    Uses (fun p => walkLevels va alloc shifts p t) p (some v) := by
  induction shifts generalizing p t q with
  | nil =>
      intro p' hr
      cases hr
      exact ⟨[], rfl, fun X => rfl⟩
  | cons shift shifts ih =>
      rw [List.length_cons] at hlen
      have hshift := walkShifts_last hsuf hlen
      obtain ⟨hK, hA', hnext⟩ :=
        walkLevel_spec (i := idx va shift) alloc hS ht (by omega) hshift hA rfl
      intro p' hr
      simp only [walkLevels, cell_eq] at hr
      rcases hlev : walkLevel p (t + 8 * idx va shift) shift alloc with ⟨_ | u, p₁⟩
      · rw [hlev] at hr
        cases hr
      · rw [hlev] at hr hK hA' hnext
        -- what this level used, and what the levels below it used of the rest
        obtain ⟨used, heq, hcall⟩ :=
          walkLevel_uses (i := idx va shift) alloc hS ht (by omega) hshift hA u p₁ hlev
        obtain ⟨used', heq', hcall'⟩ := ih ((List.suffix_cons shift shifts).trans hsuf)
          (by rw [List.length_cons]; omega) hK.shape (hnext u rfl) hA' p' hr
        refine ⟨used ++ used', by rw [heq, heq', List.append_assoc], fun X => ?_⟩
        simp only at hcall hcall'
        rw [List.append_assoc]
        simp only [walkLevels, cell_eq, hcall, hcall']

/-- A walk with a frame for each level reaches the end. -/
theorem walkLevels_enough (va : Nat) {shifts : List Nat}
    (hsuf : shifts <:+ walkShifts) (hlen : q.length + shifts.length = 3) (hS : Shape p.mem root)
    (ht : tableAt p.mem root q = some t) (hA : FreshAnswers p.mem root p.answers)
    (h0 : ∀ f ∈ p.answers, f ≠ 0) (hmany : shifts.length ≤ p.answers.length) :
    ∃ u p', walkLevels va true shifts p t = (some u, p') ∧
      p.answers.length ≤ p'.answers.length + shifts.length := by
  induction shifts generalizing p t q with
  | nil => exact ⟨t, p, rfl, Nat.le_refl _⟩
  | cons shift shifts ih =>
      rw [List.length_cons] at hlen hmany
      have hshift := walkShifts_last hsuf hlen
      obtain ⟨u, p₁, hlev, hleft⟩ :=
        walkLevel_enough (i := idx va shift) hS ht (by omega) hshift hA h0 (by omega)
      have hg := walkLevel_grown (i := idx va shift) true hS ht (by omega) hshift hA
      obtain ⟨hK, hA', hnext⟩ :=
        walkLevel_spec (i := idx va shift) true hS ht (by omega) hshift hA rfl
      rw [hlev] at hg hK hA' hnext
      obtain ⟨v, p', hr, hleft'⟩ := ih ((List.suffix_cons shift shifts).trans hsuf)
        (by rw [List.length_cons]; omega) hK.shape (hnext u rfl) hA'
        (fun f hf => h0 f (hg.answers f hf)) (by simp only; omega)
      refine ⟨v, p', ?_, ?_⟩
      · rw [walkLevels, cell_eq, hlev]
        exact hr
      · rw [List.length_cons]
        simp only at hleft'
        omega

/-- A walk along tables that are there ends at the last of them and takes no frame. -/
theorem walkLevels_path (va : Nat) (alloc : Bool) (as : List Nat) {shifts : List Nat} {pt : Nat}
    (hlen : q.length + shifts.length = 3) (hS : Shape m root) (ht : tableAt m root q = some t)
    (hpt : tableAt m root ((shifts.map (idx va)).reverse ++ q) = some pt) :
    ∃ m', walkLevels va alloc shifts ⟨m, as⟩ t = (some pt, ⟨m', as⟩) := by
  induction shifts generalizing m t q with
  | nil =>
      rw [List.map_nil, List.reverse_nil, List.nil_append, ht] at hpt
      cases hpt
      exact ⟨m, rfl⟩
  | cons shift shifts ih =>
      rw [List.length_cons] at hlen
      rw [List.map_cons, List.reverse_cons, List.append_assoc, List.singleton_append] at hpt
      cases hc : child m t (idx va shift) with
      | none =>
          rw [tableAt_below_none ht hc] at hpt
          cases hpt
      | some u =>
          obtain ⟨m₁, hwalk, hK, htables, -⟩ :=
            walkLevel_follow shift alloc hS ht (by omega) hc
          have hq : (idx va shift :: q).length ≤ 3 := by
            rw [List.length_cons]
            omega
          have hu : tableAt m₁ root (idx va shift :: q) = some u :=
            (htables _ hq).trans ((tableAt_cons ht).trans hc)
          have hpt' : tableAt m₁ root ((shifts.map (idx va)).reverse ++ idx va shift :: q) =
              some pt := by
            rw [htables _ (by simp; omega)]
            exact hpt
          obtain ⟨m', hr⟩ := ih (by rw [List.length_cons]; omega) hK.shape hu hpt'
          refine ⟨m', ?_⟩
          rw [walkLevels, cell_eq, hwalk]
          exact hr

/-! ## Calls -/

variable {A : PageMap} {pa flags : Nat}

theorem mmWalkPage_eq (va : Nat) (alloc : Bool) (hS : Shape p.mem root) :
    mmWalkPage p root va alloc =
      ((walkLevels va alloc walkShifts p root).1.map fun t : Nat => t + 8 * idx va 12,
        (walkLevels va alloc walkShifts p root).2) := by
  have hroot := hS.frame [] root (by simp) rfl
  have hmask : root &&& kTableMask = root := by
    have h₁ := hroot.bound
    have h₂ := hroot.aligned
    rw [and_tableMask (by omega), tableBits]
    omega
  rw [mmWalkPage, if_neg hroot.ne_zero, hmask]
  simp only [cell_eq]

theorem mmWalkPage_grown (va : Nat) (alloc : Bool) (hS : Shape p.mem root)
    (hA : FreshAnswers p.mem root p.answers) : Grown root p (mmWalkPage p root va alloc).2 := by
  rw [mmWalkPage_eq va alloc hS]
  exact walkLevels_grown va alloc (q := []) List.suffix_rfl rfl hS rfl hA

theorem pagePath_length : (pagePath va).length = 3 := rfl

/-- Writing an entry of a page table moves no table. -/
theorem Shape.tables_put (hS : Shape m root) {pt w : Nat}
    (hpt : tableAt m root (pagePath va) = some pt) (hq : q.length ≤ 3) :
    tableAt (putLE m (pt + 8 * idx va 12) 8 w) root q = tableAt m root q := by
  have hlen : (pagePath va).length = 3 := pagePath_length
  apply (hS.onlyEntry_put hpt (by omega)).tableAt_eq hq
  intro hs
  have := hs.length_le
  rw [List.length_cons] at this
  omega

theorem Shape.put_grown (hS : Shape p.mem root) (hA : FreshAnswers p.mem root p.answers)
    {pt w : Nat} (hpt : tableAt p.mem root (pagePath va) = some pt) :
    Grown root p ⟨putLE p.mem (pt + 8 * idx va 12) 8 w, p.answers⟩ :=
  Grown.retouch hS hA (fun _ hq => hS.tables_put hpt hq) ⟨pagePath va, Nat.le_refl 3, hpt⟩
    (OnlyAt.putLE (Nat.le_refl _) (Nat.le_refl _))

/-- A frame may be mapped. -/
structure Mappable (pa : Nat) : Prop where
  ne_zero : pa ≠ 0
  aligned : pa % 4096 = 0

theorem Mappable.and_eq (hpa : Mappable pa) : ¬ pa &&& (kPageSize - 1) ≠ 0 := by
  have hand : pa &&& (kPageSize - 1) = pa % 2 ^ 12 := BitMask.and_low _ 12
  rw [hand, not_not]
  exact hpa.aligned

theorem mmMapPageIn_none (hpa : Mappable pa) (hw : mmWalkPage p root va true = (none, p')) :
    mmMapPageIn p root va pa flags = (kErrorInvalidData, p') := by
  rw [mmMapPageIn, if_neg hpa.ne_zero, if_neg hpa.and_eq, hw]

theorem mmMapPageIn_some (hpa : Mappable pa) {slot : Nat}
    (hw : mmWalkPage p root va true = (some slot, p')) :
    mmMapPageIn p root va pa flags =
      (kErrorSuccess, ⟨putLE p'.mem slot 8 (pteWord pa flags), p'.answers⟩) := by
  rw [mmMapPageIn, if_neg hpa.ne_zero, if_neg hpa.and_eq, hw]

/-- **What a mapping call takes**: the frames of the tables it hangs in, however it ends. -/
theorem mmMapPageIn_grown (va pa flags : Nat) (hS : Shape p.mem root)
    (hA : FreshAnswers p.mem root p.answers) :
    Grown root p (mmMapPageIn p root va pa flags).2 := by
  unfold mmMapPageIn
  split
  · exact Grown.refl hA
  · split
    · exact Grown.refl hA
    · have hg := mmWalkPage_grown va true hS hA
      obtain ⟨hK, hA', hslot⟩ := mmWalkPage_spec va true hS hA rfl
      split
      · next p' hw =>
          rw [hw] at hg
          exact hg
      · next slot p' hw =>
          rw [hw] at hg hK hA' hslot
          obtain ⟨pt, rfl, hpt⟩ := hslot slot rfl
          exact hg.trans (hK.shape.put_grown hA' hpt)

/-- A mapping call that succeeds leaves the page in a page table. -/
theorem mmMapPageIn_table (hS : Shape p.mem root) (hA : FreshAnswers p.mem root p.answers)
    (hpa : Mappable pa) (hr : mmMapPageIn p root va pa flags = (kErrorSuccess, p')) :
    ∃ pt, tableAt p'.mem root (pagePath va) = some pt := by
  have hlen : (pagePath va).length ≤ 3 := Nat.le_refl 3
  obtain ⟨hK, -, hslot⟩ := mmWalkPage_spec va true hS hA rfl
  rcases hw : mmWalkPage p root va true with ⟨_ | slot, q⟩
  · rw [mmMapPageIn_none hpa hw] at hr
    cases hr
  · rw [mmMapPageIn_some hpa hw] at hr
    cases hr
    rw [hw] at hK hslot
    obtain ⟨pt, rfl, hpt⟩ := hslot slot rfl
    exact ⟨pt, (hK.shape.tables_put hpt hlen).trans hpt⟩

theorem mmMapPageIn_uses (hS : Shape p.mem root) (hA : FreshAnswers p.mem root p.answers)
    (hpa : Mappable pa) : Uses (fun p => mmMapPageIn p root va pa flags) p kErrorSuccess := by
  have hsame : ∀ X, Shape (Phys.mk p.mem X).mem root := fun _ => hS
  have heq := mmWalkPage_eq va true hS
  intro p' hr
  simp only at hr
  rcases hw : walkLevels va true walkShifts p root with ⟨_ | t, p₁⟩
  · rw [hw] at heq
    rw [mmMapPageIn_none hpa heq] at hr
    cases hr
  · rw [hw] at heq
    rw [mmMapPageIn_some hpa heq] at hr
    cases hr
    obtain ⟨used, hused, hcall⟩ :=
      walkLevels_uses va true (q := []) List.suffix_rfl rfl hS rfl hA t p₁ hw
    refine ⟨used, hused, fun X => ?_⟩
    have heq' := mmWalkPage_eq va true (hsame (used ++ X))
    simp only at hcall
    rw [hcall] at heq'
    exact mmMapPageIn_some hpa heq'

/-- A mapping call with three frames for tables succeeds. -/
theorem mmMapPageIn_enough (va flags : Nat) (hS : Shape p.mem root)
    (hA : FreshAnswers p.mem root p.answers)
    (hpa : Mappable pa) (h0 : ∀ f ∈ p.answers, f ≠ 0) (hmany : 3 ≤ p.answers.length) :
    ∃ p', mmMapPageIn p root va pa flags = (kErrorSuccess, p') ∧
      p.answers.length ≤ p'.answers.length + 3 := by
  obtain ⟨t, p', hw, hleft⟩ :=
    walkLevels_enough va (q := []) List.suffix_rfl rfl hS rfl hA h0 hmany
  have heq := mmWalkPage_eq va true hS
  rw [hw] at heq
  exact ⟨_, mmMapPageIn_some hpa heq, hleft⟩

/-- **An unmapping call on a page in a page table** returns its frame and takes none. -/
theorem mmUnmapPage_mapped (h : Holds p.mem root A) (hA : FreshAnswers p.mem root p.answers)
    {pt : Nat} (hpt : tableAt p.mem root (pagePath va) = some pt) (hf : A (pageOf va) = some f) :
    ∃ m', mmUnmapPage p root va = (f, ⟨m', p.answers⟩) ∧
      Holds m' root (Function.update A (pageOf va) none) ∧ Grown root p ⟨m', p.answers⟩ := by
  obtain ⟨m, as⟩ := p
  have hpath : tableAt m root ((walkShifts.map (idx va)).reverse ++ []) = some pt := hpt
  obtain ⟨m₁, hw⟩ := walkLevels_path va false as (q := []) rfl h.shape rfl hpath
  have hwalk : mmWalkPage ⟨m, as⟩ root va false = (some (pt + 8 * idx va 12), ⟨m₁, as⟩) := by
    rw [mmWalkPage_eq va false (p := ⟨m, as⟩) h.shape, hw]
    rfl
  have hg := mmWalkPage_grown va false (p := ⟨m, as⟩) h.shape hA
  obtain ⟨hK, hA', hslot⟩ := mmWalkPage_spec va false (p := ⟨m, as⟩) h.shape hA rfl
  rw [hwalk] at hg hK hA' hslot
  obtain ⟨pt', hcell, hpt'⟩ := hslot _ rfl
  obtain rfl : pt = pt' := Nat.add_right_cancel hcell
  have hq := hK.holds h
  -- the page resolves through the entry the walk ends at
  have hleaf : leaf m₁ pt (idx va 12) [] = some f := by
    rw [← hf, ← hq.pages va, ← pagePath_reverse, resolve_append hpt' (List.cons_ne_nil _ _),
      resolve_single]
  have hentry : Present (entry m₁ pt (idx va 12)) ∧ frameBits (entry m₁ pt (idx va 12)) = f := by
    unfold leaf at hleaf
    split at hleaf
    · next hp => exact ⟨hp, Option.some.inj hleaf⟩
    · cases hleaf
  have hword : getLE m₁ (pt + 8 * idx va 12) 8 = entry m₁ pt (idx va 12) := rfl
  refine ⟨putLE m₁ (pt + 8 * idx va 12) 8 0, ?_, ?_, hg.trans (hK.shape.put_grown hA' hpt')⟩
  · rw [mmUnmapPage, hwalk]
    simp only [hword]
    rw [if_neg fun h => and_one_eq_zero.mp h hentry.1, and_addrMask, hentry.2]
  · have hset := hq.setPage hpt' (w := 0) (by decide)
    rwa [if_neg (by decide)] at hset

end NeKernel.HALKit
