import NeKernel.HALKit.KernelTables
import NeKernel.KernelKit.ImagePages
import NeKernel.KernelKit.PEF
import NeKernel.Lib.PagedMemory

/-!
# Bytes of an image

What the loaders see through the mapping. The pages of the image window lead to frames that are
neither tables nor still to be given (`Outside`), so copying through them reaches no table
(`copyBytes_wrote`), and where these frames do not overlap the window behaves like memory of its own
(`OwnMemory.copy`). Mapping an image keeps both (`Outside.placed`, `framesApart_placed`) and blanks
its pages (`OwnMemory.placed`).
-/

namespace NeKernel.KernelKit

open ByteStore HALKit PagedMemory

variable {A A' : PageMap} {P W : Set Nat} {p p' : Phys} {root base va f n dst : Nat} {b : UInt8}
  {src : Store} {s s' s'' : Machine} {V V' : Set Nat}

/-! ## Pages -/

/-- The pages of the image window. -/
def windowPages : Set Nat :=
  Set.Ico (kPefBaseOrigin / 4096) ((kPefBaseOrigin + kPefMaxImageSz) / 4096)

/-- The addresses of the window are those of its pages. -/
theorem mem_imageWindow_iff {x : Nat} (hx : x < 2 ^ 48) :
    x ∈ imageWindow ↔ pageOf x ∈ windowPages := by
  simp only [imageWindow, windowPages, Set.mem_Ico, pageOf, kPefBaseOrigin, kPefMaxImageSz]
  omega

theorem imageWindow_lt {x : Nat} (hx : x ∈ imageWindow) : x < 2 ^ 47 := by
  have := hx.2
  simp only [kPefBaseOrigin, kPefMaxImageSz] at this
  omega

theorem canonical_of_window {x : Nat} (hx : x ∈ imageWindow) : Canonical x :=
  .inl (imageWindow_lt hx)

theorem page_of_window {x : Nat} (hx : x ∈ imageWindow) : pageOf x ∈ windowPages :=
  (mem_imageWindow_iff (by have := imageWindow_lt hx; omega)).mp hx

/-- The addresses of some pages, in the lower half. -/
def addressesOf (W : Set Nat) : Set Nat := {x | x < 2 ^ 47 ∧ pageOf x ∈ W}

theorem canonical_of_mem {x : Nat} (hx : x ∈ addressesOf W) : Canonical x := .inl hx.1

theorem imageWindow_subset : imageWindow ⊆ addressesOf windowPages :=
  fun _ hx => ⟨imageWindow_lt hx, page_of_window hx⟩

/-- Where the processor finds a byte is what the map says. -/
theorem translate_eq (h : Holds p.mem root A) (hva : Canonical va) :
    translate p.mem root va = place A (pageOf va) (va % 4096) := by
  rw [translate, if_pos hva, h.pages, place]

theorem translate_none (hva : ¬ Canonical va) : translate p.mem root va = none := if_neg hva

/-- The byte at an address; `none` where an access faults. -/
def byteAt (root : Nat) (s : Machine) (va : Nat) : Option UInt8 :=
  (translate s.phys.mem root va).map s.phys.mem

theorem byteAt_eq (h : Holds s.phys.mem root A) (hva : Canonical va) :
    byteAt root s va = look A s.phys.mem (pageOf va) (va % 4096) := by
  rw [byteAt, translate_eq h hva, look]

/-! ## Frames that are not tables -/

/-- The pages of `W` lead to frames that are neither tables nor still to be given. -/
def Outside (root : Nat) (A : PageMap) (p : Phys) (W : Set Nat) : Prop :=
  ∀ pg ∈ W, ∀ f, A pg = some f → TableFrame f ∧ f ∉ tables p.mem root ∧ f ∉ p.answers

/-- They do so later, when the map has not changed there. -/
theorem Outside.later (h : Outside root A p W) (hlater : Later root p p')
    (hA : ∀ pg ∈ W, ∀ f, A' pg = some f → A pg = some f) : Outside root A' p' W := by
  intro pg hpg f hf
  obtain ⟨hframe, hnot, hans⟩ := h pg hpg f (hA pg hpg f hf)
  exact ⟨hframe, hlater.notMem hnot hans⟩

/-- The frames under an image that is mapped are of that kind, too. -/
theorem Outside.placed (h : Outside root A p W) (hp : Placed root P A A' p p') :
    Outside root A' p' (W ∪ P) := by
  intro pg hpg f hf
  by_cases hin : pg ∈ P
  · obtain ⟨f', hf', hown⟩ := hp.page pg hin
    obtain rfl : f' = f := Option.some.inj (hf'.symm.trans hf)
    exact ⟨hown.frame, hown.outside⟩
  · rw [hp.other pg hin] at hf
    obtain ⟨hframe, hnot, hans⟩ := h pg (hpg.resolve_right hin) f hf
    exact ⟨hframe, hp.notMem hnot hans⟩

/-- **The frames of an image are apart** from each other and from those that were mapped before. -/
theorem framesApart_placed (hap : FramesApart A W 4096) (hout : Outside root A p W)
    (hp : Placed root P A A' p p') : FramesApart A' (W ∪ P) 4096 := by
  -- a frame of the image was an answer, the others are not
  have hcross : ∀ pg ∈ W ∪ P, ∀ pg' ∈ P, ∀ f f', pg ∉ P → A' pg = some f → A' pg' = some f' →
      f + 4096 ≤ f' ∨ f' + 4096 ≤ f := by
    intro pg hpg pg' hpg' f f' hnot hf hf'
    rw [hp.other pg hnot] at hf
    obtain ⟨hframe, -, hans⟩ := hout pg (hpg.resolve_right hnot) f hf
    obtain ⟨g, hg, hown⟩ := hp.page pg' hpg'
    obtain rfl : g = f' := Option.some.inj (hg.symm.trans hf')
    exact hframe.apart hown.frame fun heq => hans (heq ▸ hown.answer)
  intro pg hpg pg' hpg' f f' hf hf' hne
  by_cases hin : pg ∈ P <;> by_cases hin' : pg' ∈ P
  · obtain ⟨g, hg, hown⟩ := hp.page pg hin
    obtain ⟨g', hg', hown'⟩ := hp.page pg' hin'
    obtain rfl : g = f := Option.some.inj (hg.symm.trans hf)
    obtain rfl : g' = f' := Option.some.inj (hg'.symm.trans hf')
    exact hown.frame.apart hown'.frame fun heq =>
      hne (hp.inj pg hin pg' hin' (hg.trans (heq ▸ hg'.symm)))
  · exact (hcross pg' hpg' pg hin f' f hin' hf' hf).symm
  · exact hcross pg hpg pg' hin' f f' hin hf hf'
  · rw [hp.other pg hin] at hf
    rw [hp.other pg' hin'] at hf'
    exact hap pg (hpg.resolve_right hin) pg' (hpg'.resolve_right hin') f f' hf hf' hne

/-- What an image that is mapped leaves in a page. -/
theorem look_placed {o pg : Nat} (hout : Outside root A p W) (hp : Placed root P A A' p p')
    (hz : ∀ pg ∈ P, ∀ f, A' pg = some f → Zeroed p'.mem f) (ho : o < 4096) (hpg : pg ∈ W ∪ P) :
    (pg ∈ P → look A' p'.mem pg o = some 0) ∧
      (pg ∉ P → look A' p'.mem pg o = look A p.mem pg o) := by
  constructor
  · intro hin
    obtain ⟨f, hf, -⟩ := hp.page pg hin
    rw [look_of_mapped hf, hz pg hin f hf o ho]
  · intro hnot
    apply look_congr (hp.other pg hnot) ho
    intro f hf
    obtain ⟨hframe, htable, hans⟩ := hout pg (hpg.resolve_right hnot) f hf
    exact hp.rest f hframe htable hans

/-! ## Stores -/

/-- Between `s` and `s'` bytes were stored through addresses of `V`, none of them in a table. -/
structure Wrote (root : Nat) (V : Set Nat) (s s' : Machine) : Prop where
  agree : ∀ t ∈ tables s.phys.mem root, AgreeOn s.phys.mem s'.phys.mem t kPageSize
  answers : s'.phys.answers = s.phys.answers
  freed : s'.freed = s.freed
  pool : ∀ f, InPool s' f ↔ InPool s f
  written : ∃ l, s'.written = l ++ s.written ∧ ∀ va ∈ l, va ∈ V

theorem Wrote.nothing : Wrote root V s s :=
  ⟨fun _ _ _ _ _ => rfl, rfl, rfl, fun _ => Iff.rfl, [], rfl, fun _ h => absurd h List.not_mem_nil⟩

theorem Wrote.tableAt (h : Wrote root V s s') {q : List Idx} (hq : q.length ≤ 3) :
    tableAt s'.phys.mem root q = tableAt s.phys.mem root q := tableAt_agree h.agree hq

theorem Wrote.tables (h : Wrote root V s s') :
    tables s'.phys.mem root = tables s.phys.mem root := tables_congr fun _ hq => h.tableAt hq

theorem Wrote.trans (h : Wrote root V s s') (h' : Wrote root V s' s'') : Wrote root V s s'' where
  agree := fun t ht => (h.agree t ht).trans (h'.agree t (h.tables ▸ ht))
  answers := h'.answers.trans h.answers
  freed := h'.freed.trans h.freed
  pool := fun f => (h'.pool f).trans (h.pool f)
  written := by
    obtain ⟨l, hl, hin⟩ := h.written
    obtain ⟨l', hl', hin'⟩ := h'.written
    refine ⟨l' ++ l, by rw [hl', hl, List.append_assoc], fun va hva => ?_⟩
    exact (List.mem_append.mp hva).elim (hin' va) (hin va)

theorem Wrote.mono (h : Wrote root V s s') (hV : V ⊆ V') : Wrote root V' s s' where
  agree := h.agree
  answers := h.answers
  freed := h.freed
  pool := h.pool
  written := by
    obtain ⟨l, hl, hin⟩ := h.written
    exact ⟨l, hl, fun va hva => hV (hin va hva)⟩

theorem Wrote.later (h : Wrote root V s s') : Later root s.phys s'.phys where
  old := fun _ _ hq ht => (h.tableAt hq).trans ht
  new := fun _ ht => .inl (h.tables ▸ ht)
  answers := fun _ hf => h.answers ▸ hf

/-- **Stores outside the tables keep the map.** -/
theorem Wrote.space (h : Wrote root V s s') (hs : Space root A s.phys) : Space root A s'.phys where
  holds := hs.holds.agree h.agree
  answers := by
    rw [h.answers]
    exact hs.answers.congr fun _ hq => h.tableAt hq

theorem Wrote.outside (h : Wrote root V s s') (hout : Outside root A s.phys W) :
    Outside root A s'.phys W := hout.later h.later fun _ _ _ hf => hf

/-- The machine after a store to a physical address. -/
def stored (s : Machine) (va a : Nat) (b : UInt8) : Machine :=
  { s with
    phys := ⟨Function.update s.phys.mem a b, s.phys.answers⟩
    written := va :: s.written }

/-- A store faults, or goes to the frame of its page. -/
theorem storeByte_cases (hs : Space root A s.phys) (va : Nat) (b : UInt8) :
    (storeByte root s va b = (false, s) ∧ (Canonical va → A (pageOf va) = none)) ∨
    (Canonical va ∧ ∃ f, A (pageOf va) = some f ∧
      storeByte root s va b = (true, stored s va (f + va % 4096) b)) := by
  by_cases hva : Canonical va
  · have htr := translate_eq hs.holds hva
    cases hf : A (pageOf va) with
    | none =>
        rw [place, hf, Option.map_none] at htr
        exact .inl ⟨by rw [storeByte, htr], fun _ => rfl⟩
    | some f =>
        rw [place_of_mapped hf] at htr
        exact .inr ⟨hva, f, rfl, by rw [storeByte, htr, stored]⟩
  · exact .inl ⟨by rw [storeByte, translate_none hva], fun h => absurd h hva⟩

/-- A store to a frame that is no table. -/
theorem stored_wrote (va : Nat) (b : UInt8) (hs : Space root A s.phys) (hf : TableFrame f)
    (hnot : f ∉ tables s.phys.mem root) : Wrote root {va} s (stored s va (f + va % 4096) b) where
  agree := by
    apply hs.holds.shape.agree_frame hf hnot
    intro x hx
    have hlt : va % 4096 < 4096 := Nat.mod_lt _ (by decide)
    simp only [kPageSize] at hx
    exact Function.update_of_ne (by omega) _ _
  answers := rfl
  freed := rfl
  pool := fun _ => Iff.rfl
  written := ⟨[va], rfl, fun _ h => List.mem_singleton.mp h⟩

/-! ## Copies -/

/-- The addresses a copy goes to. -/
def target (dst n : Nat) : Set Nat := {va | Canonical va ∧ ∃ i, i < n ∧ va = u64 (dst + i)}

theorem target_mono {n' : Nat} (h : n ≤ n') : target dst n ⊆ target dst n' := by
  rintro va ⟨hc, i, hi, rfl⟩
  exact ⟨hc, i, Nat.lt_of_lt_of_le hi h, rfl⟩

theorem copyBytes_fault (h : copyBytes root dst src n s = (false, s')) :
    copyBytes root dst src (n + 1) s = (false, s') := by
  rw [copyBytes, h]
  exact if_pos rfl

theorem copyBytes_next (h : copyBytes root dst src n s = (true, s')) :
    copyBytes root dst src (n + 1) s = storeByte root s' (u64 (dst + n)) (src n) := by
  rw [copyBytes, h]
  exact if_neg fun heq => Bool.noConfusion heq

/-- **A copy into pages that lead to no table** writes to its target and keeps the tables. -/
theorem copyBytes_wrote (src : Store) (hs : Space root A s.phys) (hout : Outside root A s.phys W)
    (hin : ∀ va ∈ target dst n, pageOf va ∈ W) :
    Wrote root (target dst n) s (copyBytes root dst src n s).2 := by
  induction n with
  | zero => exact Wrote.nothing
  | succ n ih =>
      have hbefore := (ih fun va hva => hin va (target_mono (Nat.le_succ n) hva)).mono
        (target_mono (Nat.le_succ n))
      rcases hr : copyBytes root dst src n s with ⟨_ | _, s₁⟩
      · rw [hr] at hbefore
        rw [copyBytes_fault hr]
        exact hbefore
      · rw [hr] at hbefore
        rw [copyBytes_next hr]
        have hs₁ := hbefore.space hs
        rcases storeByte_cases hs₁ (u64 (dst + n)) (src n) with ⟨heq, -⟩ | ⟨hc, f, hf, heq⟩
        · rw [heq]
          exact hbefore
        · have hmem : u64 (dst + n) ∈ target dst (n + 1) := ⟨hc, n, Nat.lt_succ_self n, rfl⟩
          obtain ⟨hframe, hnot, -⟩ := hbefore.outside hout _ (hin _ hmem) f hf
          rw [heq]
          apply hbefore.trans
          apply (stored_wrote _ _ hs₁ hframe hnot).mono
          exact Set.singleton_subset_iff.mpr hmem

/-- The byte at `x` after a copy of `n` bytes to `dst`, over what was there. -/
def copied (dst n : Nat) (src : Store) (x : Nat) (old : Option UInt8) : Option UInt8 :=
  if dst ≤ x ∧ x < dst + n then some (src (x - dst)) else old

/-- A copy whose target is mapped ends without a fault. -/
theorem copyBytes_true (hs : Space root A s.phys) (hout : Outside root A s.phys W)
    (hin : ∀ i, i < n → Canonical (u64 (dst + i)) ∧ pageOf (u64 (dst + i)) ∈ W ∧
      A (pageOf (u64 (dst + i))) ≠ none) :
    ∃ s', copyBytes root dst src n s = (true, s') := by
  induction n with
  | zero => exact ⟨s, rfl⟩
  | succ n ih =>
      obtain ⟨s₁, heq⟩ := ih fun i hi => hin i (Nat.lt_succ_of_lt hi)
      have hw := copyBytes_wrote (n := n) src hs hout fun va ⟨_, i, hi, hva⟩ =>
        hva ▸ (hin i (Nat.lt_succ_of_lt hi)).2.1
      rw [heq] at hw
      obtain ⟨hc, -, hmapped⟩ := hin n (Nat.lt_succ_self n)
      rw [copyBytes_next heq]
      rcases storeByte_cases (hw.space hs) (u64 (dst + n)) (src n) with ⟨-, hno⟩ | ⟨-, f, -, hst⟩
      · exact absurd (hno hc) hmapped
      · exact ⟨_, hst⟩

/-- A copy that ends without a fault has been to mapped pages only. -/
theorem copyBytes_mapped (hs : Space root A s.phys) (hout : Outside root A s.phys W)
    (hin : ∀ va ∈ target dst n, pageOf va ∈ W) (hr : copyBytes root dst src n s = (true, s')) :
    ∀ i, i < n → A (pageOf (u64 (dst + i))) ≠ none := by
  induction n generalizing s' with
  | zero => exact fun i hi => absurd hi (Nat.not_lt_zero i)
  | succ n ih =>
      have hbefore : ∀ va ∈ target dst n, pageOf va ∈ W :=
        fun va hva => hin va (target_mono (Nat.le_succ n) hva)
      have hw := copyBytes_wrote src hs hout hbefore
      rcases heq : copyBytes root dst src n s with ⟨_ | _, s₁⟩
      · rw [copyBytes_fault heq] at hr
        cases hr
      · rw [heq] at hw
        rw [copyBytes_next heq] at hr
        intro i hi
        rcases Nat.lt_succ_iff_lt_or_eq.mp hi with hi | rfl
        · exact ih hbefore heq i hi
        · rcases storeByte_cases (hw.space hs) (u64 (dst + i)) (src i) with ⟨hfault, -⟩ | ⟨-, f, hf, -⟩
          · rw [hfault] at hr
            cases hr
          · rw [hf]
            exact Option.some_ne_none f

/-- Canonical addresses differ in the page or in the offset. -/
theorem canonical_ext {x y : Nat} (hx : Canonical x) (hy : Canonical y) (hne : x ≠ y) :
    pageOf y ≠ pageOf x ∨ y % 4096 ≠ x % 4096 := by
  simp only [Canonical, pageOf] at *
  omega

/-- **A copy into pages whose frames do not overlap** that ends without a fault is seen where it went
and at no other address of these pages. -/
theorem copyBytes_seen (hs : Space root A s.phys) (hout : Outside root A s.phys W)
    (hap : FramesApart A W 4096) (hn : n ≤ 2 ^ 64) (hin : ∀ va ∈ target dst n, pageOf va ∈ W)
    (hr : copyBytes root dst src n s = (true, s')) {x : Nat} (hx : Canonical x)
    (hxW : pageOf x ∈ W) :
    (∀ i < n, x = u64 (dst + i) → byteAt root s' x = some (src i)) ∧
      ((∀ i < n, x ≠ u64 (dst + i)) → byteAt root s' x = byteAt root s x) := by
  induction n generalizing s' with
  | zero =>
      cases hr
      exact ⟨fun i hi => absurd hi (Nat.not_lt_zero i), fun _ => rfl⟩
  | succ n ih =>
      rcases heq : copyBytes root dst src n s with ⟨_ | _, s₁⟩
      · rw [copyBytes_fault heq] at hr
        cases hr
      · have hbefore : ∀ va ∈ target dst n, pageOf va ∈ W :=
          fun va hva => hin va (target_mono (Nat.le_succ n) hva)
        have hw := copyBytes_wrote src hs hout hbefore
        rw [heq] at hw
        have hs₁ := hw.space hs
        obtain ⟨hthere, helse⟩ := ih (Nat.le_of_succ_le hn) hbefore heq
        rw [copyBytes_next heq] at hr
        rcases storeByte_cases hs₁ (u64 (dst + n)) (src n) with ⟨hfault, -⟩ | ⟨hc, f, hf, hstore⟩
        · rw [hfault] at hr
          cases hr
        · rw [hstore] at hr
          cases hr
          have hpage : pageOf (u64 (dst + n)) ∈ W := hin _ ⟨hc, n, Nat.lt_succ_self n, rfl⟩
          obtain ⟨hframe, hnot, -⟩ := hw.outside hout _ hpage f hf
          have hs₂ := (stored_wrote (u64 (dst + n)) (src n) hs₁ hframe hnot).space hs₁
          have hcell := place_of_mapped (o := u64 (dst + n) % 4096) hf
          -- the last byte is seen under its own address only
          have hlast (hne : x ≠ u64 (dst + n)) :
              byteAt root (stored s₁ (u64 (dst + n)) (f + u64 (dst + n) % 4096) (src n)) x =
                byteAt root s₁ x := by
            rw [byteAt_eq hs₂.holds hx, byteAt_eq hs₁.holds hx]
            exact look_store_other hap hpage hxW (Nat.mod_lt _ (by decide))
              (Nat.mod_lt _ (by decide)) (canonical_ext hx hc hne) hcell
          constructor
          · rintro i hi rfl
            rcases Nat.lt_succ_iff_lt_or_eq.mp hi with hlt | rfl
            · rw [hlast (by simp only [u64]; omega)]
              exact hthere i hlt rfl
            · rw [byteAt_eq hs₂.holds hx]
              exact look_store_same hcell
          · intro hother
            rw [hlast (hother n (Nat.lt_succ_self n))]
            exact helse fun i hi => hother i (Nat.lt_succ_of_lt hi)

theorem canonical_of_translate {m : Store} {a : Nat} (h : translate m root va = some a) :
    Canonical va := by
  unfold translate at h
  split at h
  · assumption
  · cases h

/-- What has been written through before a copy has been so after it, and so has the target of a copy
that ends without a fault. -/
theorem copyBytes_log (root dst n : Nat) (src : Store) (s : Machine) :
    (∀ va ∈ s.written, va ∈ (copyBytes root dst src n s).2.written) ∧
      ((copyBytes root dst src n s).1 = true → ∀ i, i < n →
        Canonical (u64 (dst + i)) ∧ u64 (dst + i) ∈ (copyBytes root dst src n s).2.written) := by
  induction n with
  | zero => exact ⟨fun _ h => h, fun _ i hi => absurd hi (Nat.not_lt_zero i)⟩
  | succ n ih =>
      rcases heq : copyBytes root dst src n s with ⟨_ | _, s₁⟩
      · rw [heq] at ih
        rw [copyBytes_fault heq]
        exact ⟨ih.1, fun h => by cases h⟩
      · rw [heq] at ih
        rw [copyBytes_next heq, storeByte]
        split
        · exact ⟨ih.1, fun h => by cases h⟩
        · next htr =>
            refine ⟨fun va hva => List.mem_cons_of_mem _ (ih.1 va hva), fun _ i hi => ?_⟩
            rcases Nat.lt_succ_iff_lt_or_eq.mp hi with hi | rfl
            · obtain ⟨hc, hin⟩ := ih.2 rfl i hi
              exact ⟨hc, List.mem_cons_of_mem _ hin⟩
            · exact ⟨canonical_of_translate htr, List.mem_cons_self⟩

/-! ## Frames there are -/

/-- The allocator has `n` frames at least. -/
structure Frames (n : Nat) (p : Phys) : Prop where
  nonzero : ∀ f ∈ p.answers, f ≠ 0
  many : n ≤ p.answers.length

/-- What a call that takes `k` frames at most leaves. -/
theorem Frames.later {k : Nat} (h : Frames (k + n) p) (hlater : Later root p p')
    (hleft : p.answers.length ≤ p'.answers.length + k) : Frames n p' where
  nonzero := fun f hf => h.nonzero f (hlater.answers f hf)
  many := by
    have := h.many
    omega

/-! ## Memory of its own -/

/-- The memory behind some pages behaves like memory of its own. -/
structure OwnMemory (W : Set Nat) (root : Nat) (A : PageMap) (s : Machine) : Prop where
  space : Space root A s.phys
  outside : Outside root A s.phys W
  apart : FramesApart A W 4096

/-- What is behind some addresses. -/
def view (root : Nat) (V : Set Nat) (s : Machine) (x : V) : Option UInt8 := byteAt root s x

/-- **An image that is mapped** there blanks its pages and leaves the rest. -/
theorem OwnMemory.placed (h : OwnMemory W root A s) (hP : P ⊆ W)
    (hp : Placed root P A A' s.phys p')
    (hz : ∀ pg ∈ P, ∀ f, A' pg = some f → Zeroed p'.mem f) :
    OwnMemory W root A' { s with phys := p' } ∧ ∀ x ∈ addressesOf W,
      (pageOf x ∈ P → byteAt root { s with phys := p' } x = some 0) ∧
      (pageOf x ∉ P → byteAt root { s with phys := p' } x = byteAt root s x) := by
  have hW : W ∪ P = W := Set.union_eq_self_of_subset_right hP
  have hout := h.outside.placed hp
  have hap := framesApart_placed h.apart h.outside hp
  rw [hW] at hout hap
  refine ⟨⟨hp.space, hout, hap⟩, fun x hx => ?_⟩
  have hlook := look_placed (o := x % 4096) h.outside hp hz (Nat.mod_lt _ (by decide)) (.inl hx.2)
  have hc := canonical_of_mem hx
  rwa [byteAt_eq (s := { s with phys := p' }) hp.space.holds hc, byteAt_eq h.space.holds hc]

/-- Stores outside the tables keep it. -/
theorem OwnMemory.wrote {U : Set Nat} (h : OwnMemory W root A s) (hw : Wrote root U s s') :
    OwnMemory W root A s' := ⟨hw.space h.space, hw.outside h.outside, h.apart⟩

/-- **A copy** that ends without a fault is seen where it went and nowhere else. -/
theorem OwnMemory.copy (h : OwnMemory W root A s) (hV : V ⊆ addressesOf W)
    (hin : ∀ i, i < n → dst + i ∈ V) (hr : copyBytes root dst src n s = (true, s')) :
    Wrote root V s s' ∧ ∀ x ∈ V, byteAt root s' x = copied dst n src x (byteAt root s x) := by
  have hword : ∀ i < n, u64 (dst + i) = dst + i := fun i hi => by
    have hlt := (hV (hin i hi)).1
    exact u64_of_lt (by omega)
  have htarget : ∀ va ∈ target dst n, va ∈ V := by
    rintro va ⟨-, i, hi, rfl⟩
    rw [hword i hi]
    exact hin i hi
  have hpages : ∀ va ∈ target dst n, pageOf va ∈ W := fun va hva => (hV (htarget va hva)).2
  have hn : n ≤ 2 ^ 64 := by
    by_contra hlong
    have hlt := (hV (hin (2 ^ 64) (by omega))).1
    omega
  refine ⟨?_, fun x hx => ?_⟩
  · have hw := copyBytes_wrote src h.space h.outside hpages
    rw [hr] at hw
    exact hw.mono htarget
  · obtain ⟨hthere, helse⟩ := copyBytes_seen h.space h.outside h.apart hn hpages hr
      (canonical_of_mem (hV hx)) (hV hx).2
    unfold copied
    split
    · next hrange =>
        have hi : x - dst < n := by omega
        apply hthere (x - dst) hi
        rw [hword _ hi]
        omega
    · next hrange =>
        apply helse
        intro i hi heq
        rw [hword i hi] at heq
        omega

/-- The memory images are loaded in. -/
abbrev ImageSpace (root : Nat) (A : PageMap) (s : Machine) : Prop := OwnMemory windowPages root A s

/-! ## Mapping a page again where it is -/

/-- What `UserProcessScheduler::Spawn` does to the page of an address: it maps it again where it is,
for the user and read-only. -/
def remapPage (root va : Nat) (s : Machine) : Machine :=
  { s with
    phys := (mmMapPageIn s.phys root va (mmGetPageAddr s.phys.mem root va)
      (kMMFlagsUser ||| kMMFlagsPresent)).2 }

/-- A physical address that cannot be mapped is refused before anything happens. -/
theorem mmMapPageIn_refused {flags pa : Nat} (hpa : ¬ Mappable pa) :
    mmMapPageIn p root va pa flags = (kErrorInvalidData, p) := by
  unfold mmMapPageIn
  split
  · rfl
  · next hne =>
      split
      · rfl
      · next haligned =>
          have hand : pa &&& (kPageSize - 1) = pa % 2 ^ 12 := BitMask.and_low _ 12
          rw [hand, not_not] at haligned
          exact absurd ⟨hne, haligned⟩ hpa

/-- **Mapping a page again where it is** keeps the map; it takes three frames at most. -/
theorem remapPage_spec (va : Nat) (hs : Space root A s.phys) :
    Holds (remapPage root va s).phys.mem root A ∧ Grown root s.phys (remapPage root va s).phys ∧
      ∀ n, Frames (3 + n) s.phys → Frames n (remapPage root va s).phys := by
  have hread := hs.holds.read va
  have hg := mmMapPageIn_grown va (mmGetPageAddr s.phys.mem root va)
    (kMMFlagsUser ||| kMMFlagsPresent) hs.holds.shape hs.answers
  by_cases hpa : Mappable (mmGetPageAddr s.phys.mem root va)
  · -- the address is the frame of the page itself
    have hself : ∃ f, A (pageOf va) = some f ∧ mmGetPageAddr s.phys.mem root va = f := by
      cases hf : A (pageOf va) with
      | none =>
          rw [PageMap.addr, hf] at hread
          exact absurd hread hpa.ne_zero
      | some f =>
          rw [PageMap.addr, hf] at hread
          obtain ⟨haligned, -⟩ := hs.holds.frame hf
          have := hpa.aligned
          simp only at hread
          exact ⟨f, rfl, by omega⟩
    obtain ⟨f, hf, hself⟩ := hself
    have hheld := mmMapPageIn_spec hs.holds hs.answers (hself ▸ (hs.holds.frame hf).2)
      (rfl : mmMapPageIn s.phys root va (mmGetPageAddr s.phys.mem root va)
        (kMMFlagsUser ||| kMMFlagsPresent) = _)
    have hkeep : mapSpec A va (mmGetPageAddr s.phys.mem root va) (kMMFlagsUser ||| kMMFlagsPresent)
        (mmMapPageIn s.phys root va (mmGetPageAddr s.phys.mem root va)
          (kMMFlagsUser ||| kMMFlagsPresent)).1 = A := by
      unfold mapSpec
      split
      · rw [if_pos (by decide), hself, ← hf]
        exact Function.update_eq_self _ _
      · rfl
    rw [hkeep] at hheld
    refine ⟨hheld, hg, fun n hn => ?_⟩
    have hmany := hn.many
    obtain ⟨p', hmap, hleft⟩ := mmMapPageIn_enough va
      (kMMFlagsUser ||| kMMFlagsPresent) hs.holds.shape hs.answers hpa hn.nonzero
      (by omega)
    rw [hmap] at hg
    simp only [remapPage, hmap]
    exact hn.later hg.toLater hleft
  · have hsame : remapPage root va s = s := by
      rw [remapPage, mmMapPageIn_refused hpa]
    rw [hsame]
    refine ⟨hs.holds, Grown.refl hs.answers, fun n hn => ?_⟩
    have hrefl : Later root s.phys s.phys := Later.refl
    exact hn.later hrefl (by omega)

/-- The memory is as it was. -/
theorem OwnMemory.remapPage (va : Nat) (h : OwnMemory W root A s) (hV : V ⊆ addressesOf W) :
    OwnMemory W root A (remapPage root va s) ∧
      view root V (KernelKit.remapPage root va s) = view root V s := by
  obtain ⟨hheld, hg, -⟩ := remapPage_spec va h.space
  refine ⟨⟨⟨hheld, hg.fresh⟩, h.outside.later hg.toLater fun _ _ _ hf => hf, h.apart⟩, ?_⟩
  funext x
  have hc := canonical_of_mem (hV x.2)
  rw [view, view, byteAt_eq hheld hc, byteAt_eq h.space.holds hc]
  apply look_congr rfl (Nat.mod_lt _ (by decide))
  intro f hf
  obtain ⟨hframe, hnot, hans⟩ := h.outside _ (hV x.2).2 f hf
  exact hg.rest f hframe hnot hans

/-! ## A machine without pages -/

/-- The first `n` frames behind the one at `0x1000`. -/
def frameList (n : Nat) : List Nat := (List.range n).map fun k => (k + 2) * 4096

/-- A machine whose tables are a zeroed frame at `0x1000`, with `n` frames to give. -/
def bareMachine (n : Nat) : Machine where
  phys := ⟨fill zeros 0x1000 kPageSize 0, frameList n⟩
  kPmmFreeHead := 0
  kPmmBase := 0x2000
  kPmmCursor := (n + 2) * 4096
  freed := []
  written := []

theorem mem_frameList : f ∈ frameList n ↔ ∃ k, k < n ∧ (k + 2) * 4096 = f := by
  rw [frameList, List.mem_map]
  constructor
  · rintro ⟨k, hk, rfl⟩
    exact ⟨k, List.mem_range.mp hk, rfl⟩
  · rintro ⟨k, hk, rfl⟩
    exact ⟨k, List.mem_range.mpr hk, rfl⟩

theorem bareMachine_frames : Frames n (bareMachine n).phys where
  nonzero := by
    intro f hf
    obtain ⟨k, -, rfl⟩ := mem_frameList.mp hf
    omega
  many := by
    show n ≤ (frameList n).length
    rw [frameList, List.length_map, List.length_range]

theorem bareMachine_pool : Pool (bareMachine n) := by
  intro f hf _
  obtain ⟨k, hk, rfl⟩ := mem_frameList.mp hf
  exact ⟨by simp only [bareMachine]; omega, by simp only [bareMachine]; omega⟩

/-- Its tables map no page. -/
theorem bareMachine_space (hn : n < 2 ^ 39) :
    Space 0x1000 (fun _ => none) (bareMachine n).phys := by
  have hroot : TableFrame 0x1000 := ⟨by decide, by decide, by decide⟩
  refine ⟨⟨(initInv_zero (m := zeros) hroot).shape, fun va => ?_⟩, ⟨fun f hf _ => ?_, ?_⟩⟩
  · exact resolve_zero fun j => entry_fill_zero
  · obtain ⟨k, hk, rfl⟩ := mem_frameList.mp hf
    refine ⟨⟨by omega, by omega, by omega⟩, fun q _ ht => ?_⟩
    have := (tableAt_zero ht).2
    omega
  · rw [show (bareMachine n).phys.answers = frameList n from rfl, frameList, List.pairwise_map]
    apply List.nodup_range.imp
    intro a b hne
    right
    omega

theorem bareMachine_own (W : Set Nat) (hn : n < 2 ^ 39) :
    OwnMemory W 0x1000 (fun _ => none) (bareMachine n) where
  space := bareMachine_space hn
  outside := fun _ _ _ hf => by cases hf
  apart := fun _ _ _ _ _ _ hf => by cases hf

end NeKernel.KernelKit
