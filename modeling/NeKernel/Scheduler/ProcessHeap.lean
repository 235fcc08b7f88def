import NeKernel.Scheduler.UserProcess
import NeKernel.Lib.Chain
import NeKernel.Lib.Runs
import Mathlib.Data.Finset.Card
import Mathlib.Data.List.Perm.Basic
import Mathlib.Logic.Relation

/-!
# The heap of a process

`UserProcess::New` records the blocks of a process in a tree of nodes that hang together by `Next`
and `Child`; `UserProcess::Delete` looks a block up along `Next`, and `UserProcess::Exit` frees what
the tree reaches. What `mm_alloc_ptr`, `operator new` and `mm_free_ptr` answer is an argument of the
call.

`Child` is never set, so the tree is a line (`Line`). It grows at its end as long as every block
after the first has the size of the second (`newSearch_end`, `Line.snoc`); a third block of another
size takes the place of the second (`newSearch_second`), and a later one sends the search for its
place into a circle (`newSearch_circle`).
-/

namespace NeKernel.Scheduler

open Runs Threaded Function

def kCPSMaxMemoryLimit : Nat := 128 * 2 ^ 30

inductive TreeKind where
  | kInvalidTreeKind | kRedTreeKind | kBlackTreeKind
  deriving DecidableEq, Repr

structure ProcessHeapTree where
  entry : Nat
  entrySize : Nat
  entryPad : Nat
  color : TreeKind
  parent : Nat
  child : Nat
  prev : Nat
  next : Nat
  deriving DecidableEq, Repr

/-- The nodes in memory, by address. -/
abbrev HeapNodes := Nat → ProcessHeapTree

/-- The fields of a `UserProcess` that its heap uses. -/
structure ProcessHeap where
  heapTree : Nat
  usedMemory : Nat
  status : ProcessStatusKind
  deriving DecidableEq, Repr

/-- `UserProcess::Crash`. -/
def ProcessHeap.crash (p : ProcessHeap) : ProcessHeap :=
  if p.status ≠ .kRunning then p else { p with status := .kKilled }

/-- One more than the number of addresses: a loop over nodes that takes as many turns never ends. -/
def treeFuel : Nat := 2 ^ 64 + 1

/-! ## `New` -/

/-- `sched_try_go_upper_ptr_tree`. -/
def schedTryGoUpperPtrTree (nodes : HeapNodes) (tree : Nat) : Nat :=
  if tree = 0 then 0
  else
    let tree := if (nodes tree).parent ≠ 0 then (nodes tree).parent else tree
    let treeTmp := (nodes tree).next
    if treeTmp = 0 then tree else treeTmp

/-- The link `tree` leads to a node of `sz` bytes. -/
def Matches (nodes : HeapNodes) (tree sz : Nat) : Prop :=
  tree ≠ 0 ∧ (nodes tree).entrySize > 0 ∧ (nodes tree).entrySize = sz

instance (nodes : HeapNodes) (tree sz : Nat) : Decidable (Matches nodes tree sz) :=
  inferInstanceAs (Decidable (_ ∧ _ ∧ _))

/-- The loop of `New`: `entry`, `prev_entry` and `is_parent` at its end. -/
def newSearch (nodes : HeapNodes) (sz : Nat) : Nat → Nat → Nat → Bool → Option (Nat × Nat × Bool)
  | 0, _, _, _ => none
  | fuel + 1, entry, prevEntry, isParent =>
    if entry = 0 then some (entry, prevEntry, isParent)
    else if (nodes entry).entrySize < 1 then some (entry, prevEntry, isParent)
    else
      let prevEntry := entry
      if Matches nodes (nodes entry).child sz then
        newSearch nodes sz fuel (nodes entry).child prevEntry true
      else if Matches nodes (nodes entry).next sz then
        newSearch nodes sz fuel (nodes entry).next prevEntry false
      else
        let entry := schedTryGoUpperPtrTree nodes entry
        if entry ≠ 0 ∧ (nodes entry).color = .kBlackTreeKind then some (entry, prevEntry, isParent)
        else newSearch nodes sz fuel entry prevEntry isParent

/-- The node of a block, before it is linked to the others. -/
def newEntry (ptr sz padAmount parent : Nat) : ProcessHeapTree where
  entry := ptr
  entrySize := sz
  entryPad := padAmount
  color := .kBlackTreeKind
  parent := parent
  child := 0
  prev := 0
  next := 0

/-- The tail of `New`: the node at `node` is hung under `prev_entry`. -/
def hang (nodes : HeapNodes) (node prevEntry : Nat) (isParent : Bool) : HeapNodes :=
  let nodes := update nodes prevEntry { nodes prevEntry with color := .kRedTreeKind }
  if isParent then
    let nodes := update nodes prevEntry { nodes prevEntry with child := node }
    update nodes node { nodes node with parent := prevEntry }
  else
    let nodes := update nodes prevEntry { nodes prevEntry with next := node }
    update nodes node { nodes node with prev := prevEntry }

/-- `UserProcess::New`, where `mm_alloc_ptr` answers `ptr` and `operator new` answers `node`; `none`
when the search never ends. -/
def ProcessHeap.new (p : ProcessHeap) (nodes : HeapNodes) (sz padAmount ptr node : Nat) :
    Option (Except Int Nat × HeapNodes × ProcessHeap) :=
  if p.usedMemory > kCPSMaxMemoryLimit then some (.error (-kErrorHeapOutOfMemory), nodes, p)
  else if p.heapTree = 0 then
    if node = 0 then some (.error (-kErrorHeapOutOfMemory), nodes, p.crash)
    else
      some (.ok ptr, update nodes node (newEntry ptr sz padAmount 0),
        { p with heapTree := node, usedMemory := u64 (p.usedMemory + sz) })
  else
    match newSearch nodes sz treeFuel p.heapTree p.heapTree false with
    | none => none
    | some (entry, prevEntry, isParent) =>
      if node = 0 then some (.error (-kErrorHeapOutOfMemory), nodes, p.crash)
      else
        some (.ok ptr,
          hang (update nodes node (newEntry ptr sz padAmount entry)) node prevEntry isParent,
          { p with usedMemory := u64 (p.usedMemory + sz) })

/-! ## `Delete` and `Exit` -/

/-- The loop of `Delete`: the node with the pointer, `0` when there is none. -/
def deleteSearch (nodes : HeapNodes) (ptr : Nat) : Nat → Nat → Option Nat
  | 0, _ => none
  | fuel + 1, entry =>
    if entry = 0 then some 0
    else if (nodes entry).entry = ptr then some entry
    else deleteSearch nodes ptr fuel (nodes entry).next

/-- `UserProcess::Delete`, where `mm_free_ptr` answers `ret`, `none` when it stops the kernel; a
wrapped error is the pointer `0`. -/
def ProcessHeap.delete (p : ProcessHeap) (nodes : HeapNodes) (ptr : Nat) (ret : Option Int) :
    Option (Bool × ProcessHeap) :=
  if ptr = 0 then some (false, p)
  else if p.heapTree = 0 then some (false, p)
  else
    match deleteSearch nodes ptr treeFuel p.heapTree with
    | none => none
    | some entry =>
      if entry = 0 then some (false, p.crash)
      else
        ret.map fun ret => (decide (ret = kErrorSuccess),
          { p with usedMemory := u64 (p.usedMemory + 2 ^ 64 - (nodes entry).entrySize) })

/-- `sched_free_ptr_tree`: the pointers it gives to `mm_free_ptr`, in order, when each of these
calls succeeds. -/
def schedFreePtrTree : Nat → HeapNodes → Nat → Option (List Nat × HeapNodes)
  | 0, _, _ => none
  | fuel + 1, nodes, tree =>
    if tree = 0 then some ([], nodes)
    else
      let entry := (nodes tree).entry
      let next := (nodes tree).next
      let below := if next ≠ 0 ∧ (nodes next).child ≠ 0 then
          schedFreePtrTree fuel nodes (nodes next).child
        else some ([], nodes)
      match below with
      | none => none
      | some (freed, nodes) =>
        let nodes := update nodes tree { nodes tree with child := 0 }
        (schedFreePtrTree fuel nodes next).map fun rest =>
          ((if entry ≠ 0 then [entry] else []) ++ freed ++ [tree] ++ rest.1, rest.2)

/-! ## Lines of nodes -/

/-- `b` hangs under `a`. -/
def Hangs (nodes : HeapNodes) (a b : Nat) : Prop :=
  b ≠ 0 ∧ (b = (nodes a).next ∨ b = (nodes a).child)

/-- The tree at `root` reaches the node `b`. -/
def Reaches (nodes : HeapNodes) (root b : Nat) : Prop :=
  root ≠ 0 ∧ Relation.ReflTransGen (Hangs nodes) root b

/-- The node `x` of a line, between the nodes `par` and `link`. -/
structure Joint (nodes : HeapNodes) (x par link : Nat) : Prop where
  ne_zero : x ≠ 0
  size : 0 < (nodes x).entrySize
  parent : (nodes x).parent = par
  child : (nodes x).child = 0
  next : (nodes x).next = link
  color : (nodes x).color = if link = 0 then .kBlackTreeKind else .kRedTreeKind

/-- The nodes of `xs` hang one under the other, the first of them under `par`. -/
def Line (nodes : HeapNodes) : Nat → List Nat → Prop
  | _, [] => True
  | par, x :: xs => Joint nodes x par (xs.headD 0) ∧ Line nodes x xs

section

variable {nodes nodes' : HeapNodes} {par x y z b sz pad ptr node fuel prev : Nat} {xs : List Nat}
  {flag : Bool}

theorem Line.chain (h : Line nodes par xs) : Chain (fun a => (nodes a).next) 0 (xs.headD 0) xs := by
  induction xs generalizing par with
  | nil => exact .nil
  | cons x xs ih =>
      refine .cons h.1.ne_zero ?_
      show Chain _ 0 (nodes x).next xs
      rw [h.1.next]
      exact ih h.2

theorem Line.child (h : Line nodes par xs) : ∀ a ∈ xs, (nodes a).child = 0 := by
  induction xs generalizing par with
  | nil => simp
  | cons x xs ih =>
      intro a ha
      rcases List.mem_cons.mp ha with rfl | ha
      · exact h.1.child
      · exact ih h.2 a ha

theorem not_matches_zero : ¬ Matches nodes 0 sz := fun h => h.1 rfl

/-- From a node below the first, going up and down again ends at the node. -/
theorem Joint.goUpper {link : Nat} (h : Joint nodes x par link) (hpar : par ≠ 0)
    (hx : (nodes par).next = x) : schedTryGoUpperPtrTree nodes x = x := by
  simp only [schedTryGoUpperPtrTree, if_neg h.ne_zero, h.parent, if_pos hpar, hx]

/-- From the first node there is no way up. -/
theorem Joint.goUpper_root {link : Nat} (h : Joint nodes x 0 link) :
    schedTryGoUpperPtrTree nodes x = if link = 0 then x else link := by
  simp [schedTryGoUpperPtrTree, h.ne_zero, h.parent, h.next]

/-- One turn of the search at a node of a line. -/
theorem Joint.search {link : Nat} (h : Joint nodes x par link) :
    newSearch nodes sz (fuel + 1) x prev flag =
      if Matches nodes link sz then newSearch nodes sz fuel link x false
      else if schedTryGoUpperPtrTree nodes x ≠ 0 ∧
          (nodes (schedTryGoUpperPtrTree nodes x)).color = .kBlackTreeKind then
        some (schedTryGoUpperPtrTree nodes x, x, flag)
      else newSearch nodes sz fuel (schedTryGoUpperPtrTree nodes x) x flag := by
  have hsize : ¬ (nodes x).entrySize < 1 := by
    have := h.size
    omega
  rw [newSearch, if_neg h.ne_zero, if_neg hsize, h.child, if_neg not_matches_zero, h.next]

/-- **Blocks of one size** send the search to the end of the line. -/
theorem newSearch_end (h : Line nodes par (x :: xs)) (hpar : par = 0 ∨ (nodes par).next = x)
    (hsz : ∀ a ∈ xs, (nodes a).entrySize = sz) (hfuel : xs.length < fuel) :
    newSearch nodes sz fuel x prev false = some (xs.getLastD x, xs.getLastD x, false) := by
  induction xs generalizing x par fuel prev with
  | nil =>
      obtain ⟨fuel, rfl⟩ : ∃ k, fuel = k + 1 := Nat.exists_eq_succ_of_ne_zero (by omega)
      have hup : schedTryGoUpperPtrTree nodes x = x := by
        by_cases h0 : par = 0
        · subst h0
          rw [h.1.goUpper_root]
          rfl
        · exact h.1.goUpper h0 (hpar.resolve_left h0)
      have hblack : (nodes x).color = .kBlackTreeKind := h.1.color
      rw [h.1.search, hup, List.headD_nil, if_neg not_matches_zero, if_pos ⟨h.1.ne_zero, hblack⟩]
      rfl
  | cons y ys ih =>
      rw [List.length_cons] at hfuel
      obtain ⟨fuel, rfl⟩ : ∃ k, fuel = k + 1 := Nat.exists_eq_succ_of_ne_zero (by omega)
      have hy : Matches nodes y sz :=
        ⟨h.2.1.ne_zero, h.2.1.size, hsz y List.mem_cons_self⟩
      rw [h.1.search, List.headD_cons, if_pos hy, List.getLastD_cons]
      exact ih h.2 (.inr h.1.next) (fun a ha => hsz a (List.mem_cons_of_mem _ ha)) (by omega)

/-- A third block of another size is hung under the first. -/
theorem newSearch_second (h : Line nodes 0 [x, y]) (hsz : (nodes y).entrySize ≠ sz)
    (hfuel : 0 < fuel) : newSearch nodes sz fuel x prev false = some (y, x, false) := by
  obtain ⟨fuel, rfl⟩ : ∃ k, fuel = k + 1 := Nat.exists_eq_succ_of_ne_zero (by omega)
  have hy : ¬ Matches nodes y sz := fun hm => hsz hm.2.2
  have hup : schedTryGoUpperPtrTree nodes x = y := by
    rw [h.1.goUpper_root]
    exact if_neg h.2.1.ne_zero
  have hblack : (nodes y).color = .kBlackTreeKind := h.2.1.color
  rw [h.1.search, hup, List.headD_cons, if_neg hy, if_pos ⟨h.2.1.ne_zero, hblack⟩]

/-- **A later one goes in circles**: from the second node up to the first and down again. -/
theorem newSearch_circle (h : Line nodes 0 (x :: y :: z :: xs)) (hy : (nodes y).entrySize ≠ sz)
    (hz : (nodes z).entrySize ≠ sz) : newSearch nodes sz fuel x prev flag = none := by
  have hred : (nodes y).color ≠ .kBlackTreeKind := by
    have hcolor := h.2.1.color
    rw [List.headD_cons, if_neg h.2.2.1.ne_zero] at hcolor
    rw [hcolor]
    decide
  have hny : ¬ Matches nodes y sz := fun hm => hy hm.2.2
  have hnz : ¬ Matches nodes z sz := fun hm => hz hm.2.2
  have hcircle : ∀ fuel prev flag, newSearch nodes sz fuel y prev flag = none := by
    intro fuel
    induction fuel with
    | zero => exact fun _ _ => rfl
    | succ fuel ih =>
        intro prev flag
        rw [h.2.1.search, h.2.1.goUpper h.1.ne_zero h.1.next, List.headD_cons, if_neg hnz,
          if_neg fun hb => hred hb.2, ih]
  cases fuel with
  | zero => rfl
  | succ fuel =>
      have hup : schedTryGoUpperPtrTree nodes x = y := by
        rw [h.1.goUpper_root]
        exact if_neg h.2.1.ne_zero
      rw [h.1.search, hup, List.headD_cons, if_neg hny, if_neg fun hb => hred hb.2, hcircle]

/-! ## Hanging a node -/

theorem hang_other (hn : x ≠ node) (hp : x ≠ prev) : hang nodes node prev false x = nodes x := by
  simp [hang, update_of_ne, hn, hp]

theorem hang_prev (hp : prev ≠ node) : hang nodes node prev false prev =
    { nodes prev with color := .kRedTreeKind, next := node } := by
  simp [hang, hp]

theorem hang_node (hp : prev ≠ node) :
    hang nodes node prev false node = { nodes node with prev := prev } := by
  simp [hang, update_of_ne hp.symm]

/-- The nodes after `New` hung a node for a new block under `prev`. -/
def grown (nodes : HeapNodes) (node ptr sz pad up prev : Nat) : HeapNodes :=
  hang (update nodes node (newEntry ptr sz pad up)) node prev false

theorem grown_other {up : Nat} (hn : x ≠ node) (hp : x ≠ prev) :
    grown nodes node ptr sz pad up prev x = nodes x := by
  rw [grown, hang_other hn hp, update_of_ne hn]

theorem grown_prev {up : Nat} (hp : prev ≠ node) : grown nodes node ptr sz pad up prev prev =
    { nodes prev with color := .kRedTreeKind, next := node } := by
  rw [grown, hang_prev hp, update_of_ne hp]

theorem grown_node {up : Nat} (hp : prev ≠ node) : grown nodes node ptr sz pad up prev node =
    { newEntry ptr sz pad up with prev := prev } := by
  rw [grown, hang_node hp, update_self]

/-- Hanging a node leaves the blocks of the others alone. -/
theorem grown_block {up : Nat} (hn : x ≠ node) :
    (grown nodes node ptr sz pad up prev x).entry = (nodes x).entry ∧
      (grown nodes node ptr sz pad up prev x).entrySize = (nodes x).entrySize := by
  by_cases hp : x = prev
  · subst hp
    rw [grown_prev hn]
    exact ⟨rfl, rfl⟩
  · rw [grown_other hn hp]
    exact ⟨rfl, rfl⟩

/-- **A node hung under the last one** makes the line longer. -/
theorem Line.snoc (h : Line nodes par (x :: xs)) (hnodup : (x :: xs).Nodup)
    (hnode : node ∉ x :: xs) (h0 : node ≠ 0) (hsz : sz ≠ 0) :
    Line (grown nodes node ptr sz pad (xs.getLastD x) (xs.getLastD x)) par
      (x :: xs ++ [node]) := by
  induction xs generalizing x par with
  | nil =>
      have hx : x ≠ node := fun hx => hnode (by rw [hx]; exact List.mem_singleton_self _)
      refine ⟨?_, ?_, trivial⟩
      · obtain ⟨h1, h2, h3, h4, -, -⟩ := h.1
        constructor <;> simp [grown_prev hx, h1, h2, h3, h4, h0]
      · constructor <;> simp [grown_node hx, newEntry, h0, Nat.pos_of_ne_zero hsz]
  | cons y ys ih =>
      obtain ⟨hxy, hnd⟩ := List.nodup_cons.mp hnodup
      have hn : x ≠ node := fun hx => hnode (by rw [hx]; exact List.mem_cons_self)
      -- this node is neither the new one nor the last, so it is as before
      have hlast : x ≠ ys.getLastD y := by
        rintro rfl
        exact hxy List.getLastD_mem_cons
      rw [List.getLastD_cons]
      refine ⟨?_, ih h.2 hnd fun hm => hnode (List.mem_cons_of_mem _ hm)⟩
      obtain ⟨h1, h2, h3, h4, h5, h6⟩ := h.1
      have hsame : grown nodes node ptr sz pad (ys.getLastD y) (ys.getLastD y) x = nodes x :=
        grown_other hn hlast
      constructor
      · exact h1
      · rw [hsame]
        exact h2
      · rw [hsame]
        exact h3
      · rw [hsame]
        exact h4
      · rw [hsame]
        exact h5
      · rw [hsame]
        exact h6

/-! ## Chains without children -/

/-- The tree reaches the nodes of its chain. -/
theorem reaches_iff {l : List Nat} {root : Nat} (h : Chain (fun a => (nodes a).next) 0 root l)
    (hc : ∀ a ∈ l, (nodes a).child = 0) : Reaches nodes root b ↔ b ∈ l := by
  induction h with
  | nil =>
      constructor
      · exact fun hb => absurd rfl hb.1
      · exact fun hb => absurd hb List.not_mem_nil
  | @cons a l ha hl ih =>
      have ih := ih fun c hm => hc c (List.mem_cons_of_mem _ hm)
      rw [List.mem_cons, ← ih]
      constructor
      · rintro ⟨-, hb⟩
        rcases Relation.ReflTransGen.cases_head hb with rfl | ⟨c, ⟨hc0, rfl | rfl⟩, hb⟩
        · exact .inl rfl
        · exact .inr ⟨hc0, hb⟩
        · exact absurd (hc a List.mem_cons_self) hc0
      · rintro (rfl | ⟨hn, hb⟩)
        · exact ⟨ha, .refl⟩
        · exact ⟨ha, .head ⟨hn, .inl rfl⟩ hb⟩

/-- `Delete` finds the node of its pointer in the chain, or that there is none. -/
theorem deleteSearch_chain (ptr : Nat) {l : List Nat} {root : Nat}
    (h : Chain (fun a => (nodes a).next) 0 root l) (hfuel : l.length < fuel) :
    ∃ a, deleteSearch nodes ptr fuel root = some a ∧
      (a = 0 ∧ (∀ c ∈ l, (nodes c).entry ≠ ptr) ∨ a ≠ 0 ∧ a ∈ l ∧ (nodes a).entry = ptr) := by
  induction h generalizing fuel with
  | nil =>
      obtain ⟨fuel, rfl⟩ : ∃ k, fuel = k + 1 := Nat.exists_eq_succ_of_ne_zero (by omega)
      exact ⟨0, rfl, .inl ⟨rfl, by simp⟩⟩
  | @cons a l ha hl ih =>
      rw [List.length_cons] at hfuel
      obtain ⟨fuel, rfl⟩ : ∃ k, fuel = k + 1 := Nat.exists_eq_succ_of_ne_zero (by omega)
      rw [deleteSearch, if_neg ha]
      by_cases he : (nodes a).entry = ptr
      · rw [if_pos he]
        exact ⟨a, rfl, .inr ⟨ha, List.mem_cons_self, he⟩⟩
      · rw [if_neg he]
        obtain ⟨c, hs, hc⟩ := ih (Nat.lt_of_succ_lt_succ hfuel)
        refine ⟨c, hs, ?_⟩
        rcases hc with ⟨rfl, hall⟩ | ⟨hc0, hmem, hc⟩
        · refine .inl ⟨rfl, fun d hd => ?_⟩
          rcases List.mem_cons.mp hd with rfl | hd
          · exact he
          · exact hall d hd
        · exact .inr ⟨hc0, List.mem_cons_of_mem _ hmem, hc⟩

/-- `Exit` frees the block and then the node of each link of the chain. -/
theorem schedFreePtrTree_chain {l : List Nat} {root : Nat}
    (h : Chain (fun a => (nodes a).next) 0 root l) (hc : ∀ a ∈ l, (nodes a).child = 0)
    (he : ∀ a ∈ l, (nodes a).entry ≠ 0) (hfuel : l.length < fuel) :
    schedFreePtrTree fuel nodes root = some (l.flatMap fun a => [(nodes a).entry, a], nodes) := by
  induction h generalizing fuel with
  | nil =>
      obtain ⟨fuel, rfl⟩ : ∃ k, fuel = k + 1 := Nat.exists_eq_succ_of_ne_zero (by omega)
      rfl
  | @cons a l ha hl ih =>
      rw [List.length_cons] at hfuel
      obtain ⟨fuel, rfl⟩ : ∃ k, fuel = k + 1 := Nat.exists_eq_succ_of_ne_zero (by omega)
      have hnext : ¬ ((nodes a).next ≠ 0 ∧ (nodes (nodes a).next).child ≠ 0) := by
        rintro ⟨hn, hcn⟩
        obtain ⟨l', rfl, -⟩ := hl.pop hn
        exact hcn (hc _ (List.mem_cons_of_mem _ List.mem_cons_self))
      have hself : update nodes a { nodes a with child := 0 } = nodes := by
        have hca : (nodes a).child = 0 := hc a List.mem_cons_self
        rw [← hca]
        exact update_eq_self _ _
      rw [schedFreePtrTree, if_neg ha]
      simp only [if_neg hnext, hself, if_pos (he a List.mem_cons_self)]
      rw [ih (fun c hm => hc c (List.mem_cons_of_mem _ hm))
        (fun c hm => he c (List.mem_cons_of_mem _ hm)) (by omega)]
      rfl

end

end NeKernel.Scheduler
