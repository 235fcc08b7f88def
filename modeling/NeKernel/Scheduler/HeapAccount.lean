import NeKernel.Scheduler.ProcessHeap

/-!
# The account of a process's heap

Over any sequence of `New` and `Delete` the tree should reach the blocks in use, each once, and
`UsedMemory` should be the sum of their sizes. It is so as long as every block after the second has
the size of the second, the sizes add up to less than `2 ^ 64`, and `Delete` is given no block in
use: it would count the block out and leave its node where it is. A call that does otherwise ends
the account (`accounted_iff_harmless`).
-/

namespace NeKernel.Scheduler

open Runs Threaded Function

/-- A process, the nodes in memory, its blocks in use with their sizes, and the addresses the
allocator has given out. -/
structure ProcessRun where
  process : ProcessHeap
  nodes : HeapNodes
  live : List (Nat × Nat)
  given : List Nat

inductive HeapCall where
  | new (sz padAmount ptr node : Nat)
  | delete (ptr : Nat) (ret : Option Int)

/-- One call: what it reports, and the state behind it. -/
def HeapCall.apply (s : ProcessRun) : HeapCall → Option (Bool × ProcessRun)
  | .new sz padAmount ptr node =>
      (s.process.new s.nodes sz padAmount ptr node).map fun r =>
        match r.1 with
        | .error _ => (false, { s with process := r.2.2, nodes := r.2.1 })
        | .ok q => (true,
            { process := r.2.2
              nodes := r.2.1
              live := s.live ++ [(q, sz)]
              given := q :: node :: s.given })
  | .delete ptr ret =>
      (s.process.delete s.nodes ptr ret).map fun r =>
        (r.1, { s with
          process := r.2
          live := if r.1 then s.live.filter fun b => b.1 ≠ ptr else s.live })

/-- The allocations of the call succeed: with addresses that are not given out yet, and not for a
block of no bytes. -/
def Allocates (s : ProcessRun) : HeapCall → Prop
  | .new sz _ ptr node => sz ≠ 0 ∧ (ptr ≠ 0 ∧ ptr < 2 ^ 64 ∧ ptr ∉ s.given) ∧
      (node ≠ 0 ∧ node < 2 ^ 64 ∧ node ∉ s.given) ∧ ptr ≠ node
  | .delete _ _ => True

/-- The tree reaches the blocks in use, each by one node, and no others; the count is the sum of
their sizes; and `Exit` would free each of them once. -/
structure Accounted (s : ProcessRun) : Prop where
  once : ∀ b ∈ s.live, ∃! n, Reaches s.nodes s.process.heapTree n ∧ (s.nodes n).entry = b.1
  only : ∀ n, Reaches s.nodes s.process.heapTree n → (s.nodes n).entry ∈ s.live.map Prod.fst
  used : s.process.usedMemory = (s.live.map Prod.snd).sum
  exit : ∃ freed nodes',
    schedFreePtrTree treeFuel s.nodes s.process.heapTree = some (freed, nodes') ∧
      ∀ b ∈ s.live, freed.count b.1 = 1

/-- A `Delete` succeeds for a block in use and for nothing else. -/
def AnswersRight (s : ProcessRun) (r : Bool) : HeapCall → Prop
  | .new .. => True
  | .delete ptr _ => r = true ↔ ptr ∈ s.live.map Prod.fst

/-- The call comes back, with the right answer, and the account holds behind it. -/
def Keeps (s : ProcessRun) (c : HeapCall) : Prop :=
  ∃ r s', c.apply s = some (r, s') ∧ AnswersRight s r c ∧ Accounted s'

/-- A block of this size is the first or the second, or has the size of the second. -/
def Continues (s : ProcessRun) (sz : Nat) : Prop :=
  s.process.heapTree = 0 ∨ (s.nodes s.process.heapTree).next = 0 ∨
    (s.nodes (s.nodes s.process.heapTree).next).entrySize = sz

/-- A `New` that is refused or goes on with the size of the second block, or a `Delete` of something
else than a block in use. -/
def Harmless (s : ProcessRun) : HeapCall → Prop
  | .new sz _ _ _ => s.process.usedMemory > kCPSMaxMemoryLimit ∨
      s.process.usedMemory + sz < 2 ^ 64 ∧ Continues s sz
  | .delete ptr _ => ptr ∉ s.live.map Prod.fst

/-- A process without blocks. -/
structure EmptyHeap (s : ProcessRun) : Prop where
  heapTree : s.process.heapTree = 0
  usedMemory : s.process.usedMemory = 0
  live : s.live = []

def HeapStep (s : ProcessRun) (c : HeapCall) (s' : ProcessRun) : Prop :=
  ∃ r, c.apply s = some (r, s')

/-- The block of a node. -/
def block (nodes : HeapNodes) (x : Nat) : Nat × Nat := ((nodes x).entry, (nodes x).entrySize)

/-- The nodes of `xs` are the tree, in a line, and their blocks are those in use; those after the
first have one size. -/
structure InLine (s : ProcessRun) (xs : List Nat) : Prop where
  line : Line s.nodes 0 xs
  head : s.process.heapTree = xs.headD 0
  even : ∀ a ∈ xs.tail, ∀ b ∈ xs.tail, (s.nodes a).entrySize = (s.nodes b).entrySize
  live : s.live = xs.map (block s.nodes)
  used : s.process.usedMemory = (s.live.map Prod.snd).sum
  small : s.process.usedMemory < 2 ^ 64
  nodup : (xs ++ xs.map fun x => (s.nodes x).entry).Nodup
  given : ∀ a ∈ xs ++ xs.map fun x => (s.nodes x).entry, a ∈ s.given ∧ a ≠ 0 ∧ a < 2 ^ 64

section

variable {s s' : ProcessRun} {xs : List Nat} {c : HeapCall} {sz pad ptr node x y : Nat}

theorem inLine_empty (h : EmptyHeap s) : InLine s [] where
  line := trivial
  head := h.heapTree
  even := by simp
  live := h.live
  used := by rw [h.usedMemory, h.live]; rfl
  small := by rw [h.usedMemory]; decide
  nodup := List.nodup_nil
  given := by simp

/-- A line that is not empty hangs in the tree. -/
theorem InLine.heapTree_ne_zero (h : InLine s (x :: xs)) : s.process.heapTree ≠ 0 := by
  rw [h.head]
  exact h.line.1.ne_zero

/-- There are fewer nodes than turns of a loop. -/
theorem InLine.length_lt (h : InLine s xs) : xs.length < treeFuel := by
  have hnd : xs.Nodup := (List.nodup_append.mp h.nodup).1
  have hsub : xs.toFinset ⊆ Finset.range (2 ^ 64) := by
    intro a ha
    rw [List.mem_toFinset] at ha
    exact Finset.mem_range.mpr (h.given a (List.mem_append_left _ ha)).2.2
  have hcard := Finset.card_le_card hsub
  rw [List.toFinset_card_of_nodup hnd, Finset.card_range] at hcard
  exact Nat.lt_succ_of_le hcard

theorem InLine.chain (h : InLine s xs) :
    Chain (fun a => (s.nodes a).next) 0 s.process.heapTree xs := by
  rw [h.head]
  exact h.line.chain

theorem InLine.reaches (h : InLine s xs) : Reaches s.nodes s.process.heapTree x ↔ x ∈ xs :=
  reaches_iff h.chain h.line.child

theorem InLine.mem_live (h : InLine s xs) :
    ptr ∈ s.live.map Prod.fst ↔ ∃ x ∈ xs, (s.nodes x).entry = ptr := by
  rw [h.live]
  simp [block]

/-- Nodes of different blocks differ. -/
theorem InLine.entry_inj (h : InLine s xs) (hx : x ∈ xs) (hy : y ∈ xs)
    (he : (s.nodes x).entry = (s.nodes y).entry) : x = y :=
  List.inj_on_of_nodup_map (List.nodup_append.mp h.nodup).2.1 hx hy he

/-- **A line is an account.** -/
theorem InLine.accounted (h : InLine s xs) : Accounted s where
  once := by
    intro b hb
    obtain ⟨x, hx, he⟩ := h.mem_live.mp (List.mem_map_of_mem hb)
    refine ⟨x, ⟨h.reaches.mpr hx, he⟩, fun y hy => ?_⟩
    exact h.entry_inj (h.reaches.mp hy.1) hx (hy.2.trans he.symm)
  only := by
    intro n hn
    exact h.mem_live.mpr ⟨n, h.reaches.mp hn, rfl⟩
  used := h.used
  exit := by
    have hentry : ∀ a ∈ xs, (s.nodes a).entry ≠ 0 := fun a ha =>
      (h.given _ (List.mem_append_right _ (List.mem_map_of_mem ha))).2.1
    refine ⟨_, _, schedFreePtrTree_chain h.chain h.line.child hentry h.length_lt, fun b hb => ?_⟩
    -- what is freed are the nodes and their blocks, in another order
    have hperm : (xs.flatMap fun a => [(s.nodes a).entry, a]).Perm
        (xs ++ xs.map fun x => (s.nodes x).entry) := by
      have := List.map_append_flatMap_perm xs (fun a => (s.nodes a).entry) fun a => [a]
      simp only [List.flatMap_singleton'] at this
      exact this.symm.trans List.perm_append_comm
    obtain ⟨x, hx, he⟩ := h.mem_live.mp (List.mem_map_of_mem hb)
    rw [hperm.count_eq, List.count_eq_one_of_mem h.nodup]
    rw [← he]
    exact List.mem_append_right _ (List.mem_map_of_mem hx)

/-! ## Calls that keep the line -/

@[simp] theorem ProcessHeap.crash_heapTree (p : ProcessHeap) : p.crash.heapTree = p.heapTree := by
  unfold ProcessHeap.crash
  split <;> rfl

@[simp] theorem ProcessHeap.crash_usedMemory (p : ProcessHeap) :
    p.crash.usedMemory = p.usedMemory := by
  unfold ProcessHeap.crash
  split <;> rfl

/-- The line does not depend on whether the process runs. -/
theorem InLine.congr (h : InLine s xs) {p : ProcessHeap} (htree : p.heapTree = s.process.heapTree)
    (hused : p.usedMemory = s.process.usedMemory) : InLine { s with process := p } xs where
  line := h.line
  head := htree.trans h.head
  even := h.even
  live := h.live
  used := hused.trans h.used
  small := by rw [hused]; exact h.small
  nodup := h.nodup
  given := h.given

/-- The state behind a `New` that recorded its block. -/
def ProcessRun.recorded (s : ProcessRun) (nodes : HeapNodes) (heapTree sz ptr node : Nat) :
    ProcessRun where
  process := { s.process with
    heapTree := heapTree
    usedMemory := u64 (s.process.usedMemory + sz) }
  nodes := nodes
  live := s.live ++ [(ptr, sz)]
  given := ptr :: node :: s.given

theorem new_refused (h : s.process.usedMemory > kCPSMaxMemoryLimit) :
    (HeapCall.new sz pad ptr node).apply s = some (false, s) := by
  simp only [HeapCall.apply, ProcessHeap.new, if_pos h, Option.map_some]

theorem new_first (h : ¬ s.process.usedMemory > kCPSMaxMemoryLimit) (h0 : s.process.heapTree = 0)
    (hnode : node ≠ 0) : (HeapCall.new sz pad ptr node).apply s =
      some (true, s.recorded (update s.nodes node (newEntry ptr sz pad 0)) node sz ptr node) := by
  simp only [HeapCall.apply, ProcessHeap.new, if_neg h, if_pos h0, if_neg hnode, Option.map_some,
    ProcessRun.recorded]

theorem new_hung (h : ¬ s.process.usedMemory > kCPSMaxMemoryLimit) (h0 : s.process.heapTree ≠ 0)
    (hnode : node ≠ 0) {up prev : Nat} (hsearch : newSearch s.nodes sz treeFuel s.process.heapTree
      s.process.heapTree false = some (up, prev, false)) :
    (HeapCall.new sz pad ptr node).apply s = some (true,
      s.recorded (grown s.nodes node ptr sz pad up prev) s.process.heapTree sz ptr node) := by
  simp only [HeapCall.apply, ProcessHeap.new, if_neg h, if_neg h0, if_neg hnode, hsearch,
    Option.map_some, ProcessRun.recorded, grown]

/-- A block goes on with the line when it has the size of those after the first. -/
theorem InLine.continues_iff (h : InLine s (x :: xs)) :
    Continues s sz ↔ ∀ a ∈ xs, (s.nodes a).entrySize = sz := by
  have hx : s.process.heapTree = x := h.head
  have hnext : (s.nodes x).next = xs.headD 0 := h.line.1.next
  rw [Continues, hx, hnext]
  cases xs with
  | nil => simp
  | cons y ys =>
      have hx0 : x ≠ 0 := h.line.1.ne_zero
      have hy0 : y ≠ 0 := h.line.2.1.ne_zero
      simp only [List.headD_cons, hx0, hy0, false_or]
      constructor
      · intro hy a ha
        exact (h.even a ha y List.mem_cons_self).trans hy
      · exact fun hall => hall y List.mem_cons_self

/-- A new address is none of the line's. -/
theorem InLine.notMem (h : InLine s xs) {a : Nat} (ha : a ∉ s.given) :
    a ∉ xs ∧ a ∉ xs.map fun x => (s.nodes x).entry := by
  constructor
  · exact fun hm => ha (h.given a (List.mem_append_left _ hm)).1
  · exact fun hm => ha (h.given a (List.mem_append_right _ hm)).1

/-- **The account of one more block**, when its node is the end of the line. -/
theorem InLine.record (h : InLine s xs) (ha : Allocates s (.new sz pad ptr node))
    (hsmall : s.process.usedMemory + sz < 2 ^ 64) {nodes : HeapNodes} {heapTree : Nat}
    (hline : Line nodes 0 (xs ++ [node])) (hhead : heapTree = (xs ++ [node]).headD 0)
    (hblock : ∀ a ∈ xs, block nodes a = block s.nodes a) (hnode : block nodes node = (ptr, sz))
    (heven : ∀ a ∈ xs.tail, (s.nodes a).entrySize = sz) :
    InLine (s.recorded nodes heapTree sz ptr node) (xs ++ [node]) := by
  obtain ⟨-, ⟨hp0, hp, hpg⟩, ⟨hn0, hn, hng⟩, hpn⟩ := ha
  obtain ⟨hpx, hpe⟩ := h.notMem hpg
  obtain ⟨hnx, hne⟩ := h.notMem hng
  have hentry : ∀ a ∈ xs, (nodes a).entry = (s.nodes a).entry := fun a hm =>
    congrArg Prod.fst (hblock a hm)
  have hsize : ∀ a ∈ xs, (nodes a).entrySize = (s.nodes a).entrySize := fun a hm =>
    congrArg Prod.snd (hblock a hm)
  have hmap : (xs ++ [node]).map (fun x => (nodes x).entry) =
      (xs.map fun x => (s.nodes x).entry) ++ [ptr] := by
    rw [List.map_append, List.map_congr_left hentry]
    exact congrArg _ (congrArg (fun b => [b]) (congrArg Prod.fst hnode))
  have hused : u64 (s.process.usedMemory + sz) = s.process.usedMemory + sz := u64_of_lt hsmall
  -- the node and its block go to the ends of the two parts
  have hperm : ((xs ++ [node]) ++ (xs ++ [node]).map fun x => (nodes x).entry).Perm
      (node :: ptr :: (xs ++ xs.map fun x => (s.nodes x).entry)) := by
    rw [hmap]
    calc xs ++ [node] ++ ((xs.map fun x => (s.nodes x).entry) ++ [ptr])
        _ = xs ++ node :: ((xs.map fun x => (s.nodes x).entry) ++ [ptr]) := by simp
        _ |>.Perm (node :: (xs ++ ((xs.map fun x => (s.nodes x).entry) ++ [ptr]))) :=
          List.perm_middle
        _ |>.Perm (node :: ptr :: (xs ++ xs.map fun x => (s.nodes x).entry)) := by
          rw [← List.append_assoc]
          exact (List.perm_append_singleton _ _).cons _
  constructor
  · exact hline
  · exact hhead
  · have htail : ∀ a ∈ (xs ++ [node]).tail, (nodes a).entrySize = sz := by
      intro a hm
      cases xs with
      | nil => simp at hm
      | cons x ys =>
          rcases List.mem_append.mp hm with hm | hm
          · rw [hsize a (List.mem_cons_of_mem _ hm)]
            exact heven a hm
          · rw [List.mem_singleton.mp hm]
            exact congrArg Prod.snd hnode
    intro a hma b hmb
    rw [ProcessRun.recorded, htail a hma, htail b hmb]
  · show s.live ++ [(ptr, sz)] = _
    rw [h.live, List.map_append, ← List.map_congr_left hblock]
    exact congrArg _ (congrArg (fun b => [b]) hnode.symm)
  · show u64 _ = ((s.live ++ [(ptr, sz)]).map Prod.snd).sum
    rw [hused, h.used]
    simp
  · exact u64_lt _
  · refine hperm.nodup_iff.mpr ?_
    rw [List.nodup_cons, List.nodup_cons]
    refine ⟨?_, ?_, h.nodup⟩
    · simp [hpn.symm, hnx, hne]
    · simp [hpx, hpe]
  · intro a hm
    rcases List.mem_cons.mp (hperm.mem_iff.mp hm) with rfl | hm
    · exact ⟨List.mem_cons_of_mem _ List.mem_cons_self, hn0, hn⟩
    · rcases List.mem_cons.mp hm with rfl | hm
      · exact ⟨List.mem_cons_self, hp0, hp⟩
      · obtain ⟨hg, hrest⟩ := h.given a hm
        exact ⟨List.mem_cons_of_mem _ (List.mem_cons_of_mem _ hg), hrest⟩

/-- **A `New` that goes on with the line** records its block. -/
theorem InLine.new (h : InLine s xs) (ha : Allocates s (.new sz pad ptr node))
    (hlimit : ¬ s.process.usedMemory > kCPSMaxMemoryLimit)
    (hsmall : s.process.usedMemory + sz < 2 ^ 64) (hok : Continues s sz) :
    ∃ s', (HeapCall.new sz pad ptr node).apply s = some (true, s') ∧
      InLine s' (xs ++ [node]) := by
  have hsz : sz ≠ 0 := ha.1
  have hn0 : node ≠ 0 := ha.2.2.1.1
  have hnx : node ∉ xs := (h.notMem ha.2.2.1.2.2).1
  cases xs with
  | nil =>
      refine ⟨_, new_first hlimit h.head hn0, h.record ha hsmall ?_ rfl (by simp) ?_ (by simp)⟩
      · refine ⟨?_, trivial⟩
        constructor <;> simp [newEntry, hn0, Nat.pos_of_ne_zero hsz]
      · simp [block, newEntry]
  | cons x ys =>
      have hx : s.process.heapTree = x := h.head
      have hall := h.continues_iff.mp hok
      -- the search comes to the last node, and the new one is hung there
      have hsearch : newSearch s.nodes sz treeFuel s.process.heapTree s.process.heapTree false =
          some (ys.getLastD x, ys.getLastD x, false) := by
        rw [hx]
        exact newSearch_end h.line (.inl rfl) hall (Nat.lt_of_succ_lt h.length_lt)
      have h0 : s.process.heapTree ≠ 0 := h.heapTree_ne_zero
      have hlast : ys.getLastD x ≠ node := by
        rintro rfl
        exact hnx List.getLastD_mem_cons
      have hnd : (x :: ys).Nodup := (List.nodup_append.mp h.nodup).1
      refine ⟨_, new_hung hlimit h0 hn0 hsearch, h.record ha hsmall ?_ hx ?_ ?_ hall⟩
      · exact h.line.snoc hnd hnx hn0 hsz
      · intro a hm
        have hne : a ≠ node := fun he => hnx (he ▸ hm)
        exact Prod.ext (grown_block hne).1 (grown_block hne).2
      · rw [block, grown_node hlast]
        rfl

/-- A `Delete` of something else than a block in use answers no and leaves the heap as it is. -/
theorem InLine.delete (h : InLine s xs) (hptr : ptr ∉ s.live.map Prod.fst) (ret : Option Int) :
    ∃ s', (HeapCall.delete ptr ret).apply s = some (false, s') ∧ InLine s' xs := by
  by_cases hp : ptr = 0
  · refine ⟨s, ?_, h⟩
    simp only [HeapCall.apply, ProcessHeap.delete, if_pos hp, Option.map_some]
    rfl
  by_cases h0 : s.process.heapTree = 0
  · refine ⟨s, ?_, h⟩
    simp only [HeapCall.apply, ProcessHeap.delete, if_neg hp, if_pos h0, Option.map_some]
    rfl
  obtain ⟨a, hs, ⟨rfl, -⟩ | ⟨-, hm, he⟩⟩ := deleteSearch_chain ptr h.chain h.length_lt
  · refine ⟨{ s with process := s.process.crash }, ?_, h.congr (by simp) (by simp)⟩
    simp only [HeapCall.apply, ProcessHeap.delete, if_neg hp, if_neg h0, hs, if_pos,
      Option.map_some]
    rfl
  · exact absurd (h.mem_live.mpr ⟨a, hm, he⟩) hptr

/-- **A harmless call keeps the line.** -/
theorem InLine.step (h : InLine s xs) (ha : Allocates s c) (hok : Harmless s c) :
    ∃ r s' xs', c.apply s = some (r, s') ∧ AnswersRight s r c ∧ InLine s' xs' := by
  cases c with
  | new sz pad ptr node =>
      by_cases hlimit : s.process.usedMemory > kCPSMaxMemoryLimit
      · exact ⟨false, s, xs, new_refused hlimit, trivial, h⟩
      · obtain ⟨hsmall, hcont⟩ := hok.resolve_left hlimit
        obtain ⟨s', happly, hline⟩ := h.new ha hlimit hsmall hcont
        exact ⟨true, s', _, happly, trivial, hline⟩
  | delete ptr ret =>
      obtain ⟨s', happly, hline⟩ := h.delete hok ret
      refine ⟨false, s', xs, happly, ?_, hline⟩
      constructor
      · exact fun hf => absurd hf Bool.false_ne_true
      · exact fun hm => absurd hm hok

/-! ## Calls that break the account -/

/-- A `New` that is not refused and comes back has recorded its block and counted it. -/
theorem new_recorded (hlimit : ¬ s.process.usedMemory > kCPSMaxMemoryLimit) (hnode : node ≠ 0)
    {r : Bool} (h : (HeapCall.new sz pad ptr node).apply s = some (r, s')) :
    s'.live = s.live ++ [(ptr, sz)] ∧
      s'.process.usedMemory = u64 (s.process.usedMemory + sz) := by
  simp only [HeapCall.apply, ProcessHeap.new, if_neg hlimit, if_neg hnode] at h
  split at h
  · cases h
    exact ⟨rfl, rfl⟩
  · split at h
    · cases h
    · cases h
      exact ⟨rfl, rfl⟩

/-- A count that wraps is not the sum of the sizes. -/
theorem InLine.not_keeps_wrap (h : InLine s xs) (hnode : node ≠ 0)
    (hlimit : ¬ s.process.usedMemory > kCPSMaxMemoryLimit)
    (hwrap : ¬ s.process.usedMemory + sz < 2 ^ 64) : ¬ Keeps s (.new sz pad ptr node) := by
  rintro ⟨r, s', happly, -, hacc⟩
  obtain ⟨hlive, hused⟩ := new_recorded hlimit hnode happly
  have hsum : (s'.live.map Prod.snd).sum = s.process.usedMemory + sz := by
    rw [hlive, h.used]
    simp
  have hlt := u64_lt (s.process.usedMemory + sz)
  rw [← hused, hacc.used, hsum] at hlt
  exact hwrap hlt

/-- The tree loses the second block when a third takes its place. -/
theorem InLine.second_lost (h : InLine s [x, y]) (ha : Allocates s (.new sz pad ptr node)) :
    ¬ Accounted (s.recorded (grown s.nodes node ptr sz pad y x) x sz ptr node) := by
  have hn0 : node ≠ 0 := ha.2.2.1.1
  obtain ⟨hnx, -⟩ := h.notMem ha.2.2.1.2.2
  obtain ⟨-, hpe⟩ := h.notMem ha.2.1.2.2
  have hxn : x ≠ node := by
    rintro rfl
    exact hnx List.mem_cons_self
  -- what the tree reaches now are the first node and the new one
  have hchain : Chain (fun a => (grown s.nodes node ptr sz pad y x a).next) 0 x [x, node] := by
    refine .cons h.line.1.ne_zero ?_
    rw [grown_prev hxn]
    refine .cons hn0 ?_
    rw [grown_node hxn]
    exact .nil
  have hchild : ∀ a ∈ [x, node], (grown s.nodes node ptr sz pad y x a).child = 0 := by
    intro a hm
    rcases List.mem_pair.mp hm with rfl | rfl
    · rw [grown_prev hxn]
      exact h.line.1.child
    · rw [grown_node hxn]
      rfl
  have hlive : block s.nodes y ∈ s.live ++ [(ptr, sz)] := by
    rw [h.live]
    simp
  intro hacc
  obtain ⟨n, ⟨hreach, hentry⟩, -⟩ := hacc.once _ hlive
  have hentry' : (grown s.nodes node ptr sz pad y x n).entry = (s.nodes y).entry := hentry
  rcases List.mem_pair.mp ((reaches_iff hchain hchild).mp hreach) with rfl | rfl
  · rw [(grown_block hxn).1] at hentry'
    have hny : n = y := h.entry_inj List.mem_cons_self (by simp) hentry'
    have hnd := (List.nodup_append.mp h.nodup).1
    simp [hny] at hnd
  · rw [grown_node hxn] at hentry'
    have hptr : ptr = (s.nodes y).entry := hentry'
    exact hpe (by simp [hptr])

/-- **A third block of another size** takes the place of the second. -/
theorem InLine.not_keeps_second (h : InLine s [x, y]) (ha : Allocates s (.new sz pad ptr node))
    (hlimit : ¬ s.process.usedMemory > kCPSMaxMemoryLimit) (hy : (s.nodes y).entrySize ≠ sz) :
    ¬ Keeps s (.new sz pad ptr node) := by
  have hx : s.process.heapTree = x := h.head
  have h0 : s.process.heapTree ≠ 0 := h.heapTree_ne_zero
  have hsearch : newSearch s.nodes sz treeFuel s.process.heapTree s.process.heapTree false =
      some (y, x, false) := by
    rw [hx]
    exact newSearch_second h.line hy (by decide)
  rintro ⟨r, s', happly, -, hacc⟩
  rw [new_hung hlimit h0 ha.2.2.1.1 hsearch, hx] at happly
  cases happly
  exact h.second_lost ha hacc

/-- **A later block of another size** never comes back. -/
theorem InLine.not_keeps_circle {z : Nat} {zs : List Nat} (h : InLine s (x :: y :: z :: zs))
    (hlimit : ¬ s.process.usedMemory > kCPSMaxMemoryLimit) (hy : (s.nodes y).entrySize ≠ sz) :
    ¬ Keeps s (.new sz pad ptr node) := by
  have hx : s.process.heapTree = x := h.head
  have h0 : s.process.heapTree ≠ 0 := h.heapTree_ne_zero
  have hz : (s.nodes z).entrySize ≠ sz := by
    rw [h.even z (by simp) y (by simp)]
    exact hy
  have hsearch : newSearch s.nodes sz treeFuel s.process.heapTree s.process.heapTree false =
      none := by
    rw [hx]
    exact newSearch_circle h.line hy hz
  rintro ⟨r, s', happly, -, -⟩
  simp only [HeapCall.apply, ProcessHeap.new, if_neg hlimit, if_neg h0, hsearch, Option.map_none]
    at happly
  cases happly

/-- The state behind a `Delete` that found its pointer and answered `r`. -/
def ProcessRun.released (s : ProcessRun) (usedMemory ptr : Nat) (r : Bool) : ProcessRun :=
  { s with
    process := { s.process with usedMemory := usedMemory }
    live := if r then s.live.filter fun b => b.1 ≠ ptr else s.live }

theorem delete_found {a : Nat} (hptr : ptr ≠ 0) (h0 : s.process.heapTree ≠ 0)
    (hs : deleteSearch s.nodes ptr treeFuel s.process.heapTree = some a) (ha : a ≠ 0)
    (ret : Option Int) : ∃ used, (HeapCall.delete ptr ret).apply s = ret.map fun k =>
      (decide (k = kErrorSuccess), s.released used ptr (decide (k = kErrorSuccess))) := by
  have hdelete : s.process.delete s.nodes ptr ret = ret.map fun k => (decide (k = kErrorSuccess),
      { s.process with
        usedMemory := u64 (s.process.usedMemory + 2 ^ 64 - (s.nodes a).entrySize) }) := by
    rw [ProcessHeap.delete, if_neg hptr, if_neg h0, hs]
    exact if_neg ha
  refine ⟨u64 (s.process.usedMemory + 2 ^ 64 - (s.nodes a).entrySize), ?_⟩
  rw [HeapCall.apply, hdelete, Option.map_map]
  rfl

/-- **A `Delete` of a block in use** fails, or leaves the block in the tree. -/
theorem InLine.not_keeps_delete (h : InLine s xs) (hptr : ptr ∈ s.live.map Prod.fst)
    (ret : Option Int) : ¬ Keeps s (.delete ptr ret) := by
  rintro ⟨r, s', happly, hright, hacc⟩
  obtain ⟨x, hx, he⟩ := h.mem_live.mp hptr
  have hp0 : ptr ≠ 0 := by
    rw [← he]
    exact (h.given _ (List.mem_append_right _ (List.mem_map_of_mem hx))).2.1
  have h0 : s.process.heapTree ≠ 0 := (h.reaches.mpr hx).1
  obtain ⟨a, hs, ⟨-, hall⟩ | ⟨ha0, ham, hae⟩⟩ :=
    deleteSearch_chain ptr h.chain h.length_lt
  · exact hall x hx he
  · obtain ⟨used, hfound⟩ := delete_found hp0 h0 hs ha0 ret
    rw [hfound, Option.map_eq_some_iff] at happly
    obtain ⟨k, -, hk⟩ := happly
    obtain ⟨hr, rfl⟩ := Prod.mk.inj hk
    rw [hright.mpr hptr] at hr
    rw [hr] at hacc
    -- the tree is as it was, so it still reaches the node of the block
    have hin : (s.nodes a).entry ∈ (s.live.filter fun b => b.1 ≠ ptr).map Prod.fst :=
      hacc.only a (h.reaches.mpr ham)
    obtain ⟨b, hb, hba⟩ := List.mem_map.mp hin
    rw [List.mem_filter] at hb
    exact of_decide_eq_true hb.2 (hba.trans hae)

theorem InLine.not_keeps (h : InLine s xs) (ha : Allocates s c) (hbad : ¬ Harmless s c) :
    ¬ Keeps s c := by
  cases c with
  | delete ptr ret => exact h.not_keeps_delete (not_not.mp hbad) ret
  | new sz pad ptr node =>
      obtain ⟨hlimit, hrest⟩ := not_or.mp hbad
      by_cases hsmall : s.process.usedMemory + sz < 2 ^ 64
      · have hcont : ¬ Continues s sz := fun hc => hrest ⟨hsmall, hc⟩
        rcases xs with _ | ⟨x, _ | ⟨y, _ | ⟨z, zs⟩⟩⟩
        · exact absurd (.inl h.head) hcont
        · exact absurd (h.continues_iff.mpr (by simp)) hcont
        · rw [h.continues_iff] at hcont
          exact h.not_keeps_second ha hlimit (by simpa using hcont)
        · refine h.not_keeps_circle hlimit fun hy => hcont (h.continues_iff.mpr fun a hm => ?_)
          exact (h.even a hm y List.mem_cons_self).trans hy
      · exact h.not_keeps_wrap ha.2.2.1.1 hlimit hsmall

/-- **The account of a process's heap.** It holds along every run of harmless calls; and behind such
a run a call keeps it exactly when it is harmless too. -/
theorem accounted_iff_harmless {s₀ : ProcessRun} (hf : EmptyHeap s₀)
    (hr : Reach HeapStep (fun s c => Allocates s c ∧ Harmless s c) s₀ s) :
    Accounted s ∧ ∀ c, Allocates s c → (Keeps s c ↔ Harmless s c) := by
  have hline : ∃ xs, InLine s xs := by
    apply hr.inv (I := fun s => ∃ xs, InLine s xs) ⟨[], inLine_empty hf⟩
    rintro s c s' ⟨xs, h⟩ ⟨ha, hok⟩ ⟨r, hstep⟩
    obtain ⟨r', s'', xs', happly, -, hline⟩ := h.step ha hok
    rw [hstep] at happly
    cases happly
    exact ⟨xs', hline⟩
  obtain ⟨xs, h⟩ := hline
  refine ⟨h.accounted, fun c ha => ?_⟩
  constructor
  · intro hk
    by_contra hbad
    exact h.not_keeps ha hbad hk
  · intro hok
    obtain ⟨r, s', xs', happly, hright, hline⟩ := h.step ha hok
    exact ⟨r, s', happly, hright, hline.accounted⟩

/-! ## One block -/

/-- A running process without blocks. -/
def emptyRun : ProcessRun where
  process := ⟨0, 0, .kRunning⟩
  nodes := fun _ => newEntry 0 0 0 0
  live := []
  given := []

/-- The process behind a `New` of 16 bytes. -/
def oneBlock : ProcessRun :=
  emptyRun.recorded (update emptyRun.nodes 0x200 (newEntry 0x100 16 0 0)) 0x200 16 0x100 0x200

theorem emptyRun_empty : EmptyHeap emptyRun := ⟨rfl, rfl, rfl⟩

theorem allocates_emptyRun : Allocates emptyRun (.new 16 0 0x100 0x200) := by
  simp [Allocates, emptyRun]

theorem oneBlock_step : HeapStep emptyRun (.new 16 0 0x100 0x200) oneBlock :=
  ⟨true, new_first (by decide) rfl (by decide)⟩

theorem accounted_iff_harmless_one : Accounted oneBlock ∧
    (Keeps oneBlock (.new 40 0 0x300 0x400) ↔ Harmless oneBlock (.new 40 0 0x300 0x400)) := by
  have hharmless : Harmless emptyRun (.new 16 0 0x100 0x200) := .inr ⟨by decide, .inl rfl⟩
  have hallocates : Allocates oneBlock (.new 40 0 0x300 0x400) := by
    simp [Allocates, oneBlock, ProcessRun.recorded, emptyRun]
  obtain ⟨hacc, hall⟩ := accounted_iff_harmless emptyRun_empty
    (.step _ .init ⟨allocates_emptyRun, hharmless⟩ oneBlock_step)
  exact ⟨hacc, hall _ hallocates⟩

/-- Behind a `New` and a `Delete` that succeeded, the tree still reaches the block. -/
theorem deleted_still_reached :
    ∃ s, Reach HeapStep Allocates emptyRun s ∧ s.live = [] ∧
      ∃ n, Reaches s.nodes s.process.heapTree n ∧ (s.nodes n).entry = 0x100 := by
  have hdelete : (HeapCall.delete 0x100 (some kErrorSuccess)).apply oneBlock =
      some (true, { oneBlock with process := ⟨0x200, 0, .kRunning⟩, live := [] }) := rfl
  refine ⟨_, .step (.delete 0x100 (some kErrorSuccess))
    (.step _ .init allocates_emptyRun oneBlock_step) trivial ⟨true, hdelete⟩, rfl, 0x200,
    ⟨by decide, .refl⟩, rfl⟩

end

end NeKernel.Scheduler
