import Mathlib.Data.List.Nodup

/-!
# Threaded lists

A singly linked list whose links live in the nodes themselves: `next` reads the link of a node,
`null` ends the list. `Chain next null head l` says that following the links from `head` visits
exactly the nodes of `l`. Links may be read from a memory that changes; a chain depends on the
links of its own nodes only (`Chain.congr`), so a write elsewhere keeps it.
-/

namespace Threaded

variable {α : Type*}

/-- From `head` the links visit `l` and end. -/
inductive Chain (next : α → α) (null : α) : α → List α → Prop
  | nil : Chain next null null []
  | cons {a : α} {l : List α} : a ≠ null → Chain next null (next a) l → Chain next null a (a :: l)

variable {next next' : α → α} {null head : α} {l : List α}

/-- A chain reads the links of its own nodes only. -/
theorem Chain.congr (h : Chain next null head l) (hn : ∀ a ∈ l, next' a = next a) :
    Chain next' null head l := by
  induction h with
  | nil => exact .nil
  | @cons a l ha _ ih =>
      refine .cons ha ?_
      rw [hn a List.mem_cons_self]
      exact ih fun b hb => hn b (List.mem_cons_of_mem _ hb)

/-- An empty head is an empty chain. -/
theorem Chain.eq_nil (h : Chain next null null l) : l = [] := by
  cases h with
  | nil => rfl
  | cons ha _ => exact absurd rfl ha

/-- A head that is not empty is the first node, and its link heads the rest. -/
theorem Chain.pop (h : Chain next null head l) (hh : head ≠ null) :
    ∃ l', l = head :: l' ∧ Chain next null (next head) l' := by
  cases h with
  | nil => exact absurd rfl hh
  | cons _ ht => exact ⟨_, rfl, ht⟩

/-- A new node whose link is the old head goes in front. -/
theorem Chain.push (h : Chain next null head l) {a : α} (ha : a ≠ null) (hlink : next' a = head)
    (hn : ∀ b ∈ l, next' b = next b) : Chain next' null a (a :: l) := by
  refine .cons ha ?_
  rw [hlink]
  exact h.congr hn

/-- The links leave no choice: there is one list a head can visit. -/
theorem Chain.unique (h : Chain next null head l) {l' : List α} (h' : Chain next null head l') :
    l = l' := by
  induction h generalizing l' with
  | nil => exact h'.eq_nil.symm
  | cons ha _ ih =>
      obtain ⟨t, rfl, ht⟩ := h'.pop ha
      rw [ih ht]

end Threaded
