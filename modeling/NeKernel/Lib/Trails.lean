import Mathlib.Data.Finset.Card
import Mathlib.Order.Interval.Finset.Nat
import NeKernel.Lib.Scan

/-!
# Trails

A trail is a scan together with the place its walk starts from. Along a chain of links there is nothing in
the data that falls, so what decides whether a walk comes to an end is whether it comes back to a place
before it has met an exit: there are finitely many places, and from a place it goes on as it did the first
time (`run_none_iff`). What a walk notes on its way is settled by the places it comes to (`forall_log_iff`).
-/

namespace Scan

/-- A scan and its start. -/
structure Trail (α : Type*) where
  move : Nat → Nat
  leave : Nat → Bool
  visit : Nat → Visit α
  start : Nat

namespace Trail

variable {α : Type*} {w : Trail α} {fuel i j k n lo hi : Nat} {a : α}

/-- The place after `k` moves. -/
def at_ (w : Trail α) (k : Nat) : Nat := w.move^[k] w.start

/-- At the place after `k` moves the walk meets no exit. -/
def GoesOn (w : Trail α) (k : Nat) : Prop :=
  w.visit (w.at_ k) = .next ∧ w.leave (w.at_ (k + 1)) = false

/-- The walk comes back to a place before it has met an exit. -/
def Circles (w : Trail α) : Prop := ∃ i j, i < j ∧ w.at_ i = w.at_ j ∧ ∀ k < j, w.GoesOn k

/-- The walk finds `a`. -/
def Finds (w : Trail α) (a : α) : Prop :=
  ∃ k, (∀ i < k, w.GoesOn i) ∧ w.visit (w.at_ k) = .found a

def run (w : Trail α) (fuel : Nat) : Option (Option α) := scan w.move w.leave w.visit fuel w.start

theorem at_succ : w.at_ (k + 1) = w.move (w.at_ k) := Function.iterate_succ_apply' _ _ _

/-- The walk from the next place on. -/
def tail (w : Trail α) : Trail α := { w with start := w.move w.start }

theorem tail_at : w.tail.at_ k = w.at_ (k + 1) := rfl

/-- The loop runs out of turns when it has gone on with each of them. -/
theorem run_none_iff_goesOn : w.run fuel = none ↔ ∀ k < fuel, w.GoesOn k := by
  induction fuel generalizing w with
  | zero => exact iff_of_true rfl fun k hk => absurd hk (Nat.not_lt_zero k)
  | succ fuel ih =>
      have hfirst : (∀ k < fuel + 1, w.GoesOn k) ↔ w.GoesOn 0 ∧ ∀ k < fuel, w.tail.GoesOn k := by
        constructor
        · exact fun h => ⟨h 0 (Nat.succ_pos _), fun k hk => h (k + 1) (by omega)⟩
        · rintro ⟨h₀, h⟩ k hk
          cases k with
          | zero => exact h₀
          | succ k => exact h k (by omega)
      rw [hfirst, ← ih, run, scan]
      cases hv : w.visit w.start with
      | found a =>
          exact iff_of_false (by simp) fun h => by cases hv.symm.trans h.1.1
      | stop => exact iff_of_false (by simp) fun h => by cases hv.symm.trans h.1.1
      | next =>
          cases hl : w.leave (w.move w.start) with
          | true => exact iff_of_false (by simp) fun h => by cases hl.symm.trans h.1.2
          | false =>
              simp only [Bool.false_eq_true, if_false]
              exact ⟨fun h => ⟨⟨hv, hl⟩, h⟩, fun h => h.2⟩

/-- A walk that has come back to a place goes round for ever. -/
theorem Circles.goesOn (h : w.Circles) : ∀ k, w.GoesOn k := by
  obtain ⟨i, j, hij, hat, hgo⟩ := h
  intro k
  induction k using Nat.strong_induction_on with
  | _ k ih =>
      by_cases hk : k < j
      · exact hgo k hk
      · have hback : ∀ t, w.at_ (j + t) = w.at_ (i + t) := by
          intro t
          induction t with
          | zero => exact hat.symm
          | succ t iht => rw [← Nat.add_assoc, ← Nat.add_assoc, at_succ, at_succ, iht]
        obtain ⟨t, rfl⟩ := Nat.exists_eq_add_of_le (Nat.le_of_not_lt hk)
        have hearlier := ih (i + t) (by omega)
        rw [GoesOn, Nat.add_assoc, hback, hback]
        exact hearlier

/-- A walk that goes on for longer than there are places comes back to one. -/
theorem circles_of_goesOn (hgo : ∀ k < n, w.GoesOn k) (hat : ∀ k ≤ n, lo ≤ w.at_ k ∧ w.at_ k < hi)
    (hn : hi - lo ≤ n) : w.Circles := by
  have hcard : (Finset.Ico lo hi).card < (Finset.range (n + 1)).card := by
    rw [Nat.card_Ico, Finset.card_range]
    omega
  obtain ⟨x, hx, y, hy, hne, heq⟩ :=
    Finset.exists_ne_map_eq_of_card_lt_of_maps_to hcard (f := w.at_)
      fun k hk => Finset.mem_Ico.mpr (hat k (by have := Finset.mem_range.mp hk; omega))
  rw [Finset.mem_range] at hx hy
  rcases Nat.lt_or_gt_of_ne hne with hlt | hlt
  · exact ⟨x, y, hlt, heq, fun k hk => hgo k (by omega)⟩
  · exact ⟨y, x, hlt, heq.symm, fun k hk => hgo k (by omega)⟩

section
variable (hat : ∀ k, w.at_ k < hi)
include hat

/-- **A walk comes to an end** unless it circles: where it goes on it has not left the places from `lo`
to `hi`, and a turn for each of them is enough. -/
theorem run_none_iff_of_le (hstart : lo ≤ w.start) (hin : ∀ x, w.leave x = false → lo ≤ x)
    (hfuel : hi - lo ≤ fuel) : w.run fuel = none ↔ w.Circles := by
  rw [run_none_iff_goesOn]
  constructor
  · intro h
    have hplace : ∀ k ≤ fuel, lo ≤ w.at_ k ∧ w.at_ k < hi := by
      intro k hk
      refine ⟨?_, hat k⟩
      cases k with
      | zero => exact hstart
      | succ k => exact hin _ (h k hk).2
    exact circles_of_goesOn h hplace hfuel
  · exact fun h k _ => h.goesOn k

variable (hfuel : hi ≤ fuel)
include hfuel

theorem run_none_iff : w.run fuel = none ↔ w.Circles :=
  run_none_iff_of_le hat (Nat.zero_le _) (fun _ _ => Nat.zero_le _) (Nat.le_trans (Nat.sub_le _ 0) hfuel)

/-- And what it comes to then is what it finds. -/
theorem run_found_iff : w.run fuel = some (some a) ↔ w.Finds a := by
  constructor
  · intro h
    obtain ⟨k, hleave, hnext, hfound⟩ := scan_first h
    exact ⟨k, fun i hi => ⟨hnext i hi, hleave i hi⟩, hfound⟩
  · rintro ⟨k, hgo, hfound⟩
    have hk : k < fuel := by
      by_contra hle
      have hcircle : w.Circles := (run_none_iff hat hfuel).mp
        (run_none_iff_goesOn.mpr fun i hi => hgo i (by omega))
      cases hfound.symm.trans (hcircle.goesOn k).1
    obtain ⟨rest, rfl⟩ : ∃ rest, fuel = rest + 1 + k := ⟨fuel - 1 - k, by omega⟩
    have hskip : scan w.move w.leave w.visit (rest + 1 + k) (w.at_ 0) =
        scan w.move w.leave w.visit (rest + 1) (w.at_ k) :=
      scan_skip (fun i _ => at_succ.symm) (fun i hi => (hgo i hi).2) fun i hi => (hgo i hi).1
    rw [run, show w.start = w.at_ 0 from rfl, hskip, scan, hfound]

end

/-- A walk that finds something does not circle. -/
theorem Finds.not_circles (h : w.Finds a) : ¬ w.Circles := by
  intro hcircle
  obtain ⟨k, -, hfound⟩ := h
  cases hfound.symm.trans (hcircle.goesOn k).1

/-- It finds one thing only. -/
theorem Finds.unique {b : α} (h : w.Finds a) (h' : w.Finds b) : a = b := by
  obtain ⟨k, hgo, hfound⟩ := h
  obtain ⟨k', hgo', hfound'⟩ := h'
  rcases Nat.lt_trichotomy k k' with hlt | rfl | hlt
  · cases hfound.symm.trans (hgo' k hlt).1
  · exact Visit.found.inj (hfound.symm.trans hfound')
  · cases hfound'.symm.trans (hgo k' hlt).1

/-! ## What a walk notes -/

variable {β : Type*} {f : Nat → List β} {x : Nat}

/-- The walk comes to the place `x`. -/
def ComesTo (w : Trail α) (x : Nat) : Prop := ∃ k, (∀ i < k, w.GoesOn i) ∧ x = w.at_ k

/-- What is noted at the places the walk comes to in `fuel` turns. -/
def log (f : Nat → List β) : Nat → Trail α → List β
  | 0, _ => []
  | fuel + 1, w =>
      f w.start ++ match w.visit w.start with
        | .next => if w.leave (w.move w.start) then [] else log f fuel w.tail
        | _ => []

theorem comesTo_start : w.ComesTo w.start := ⟨0, fun i hi => absurd hi (Nat.not_lt_zero i), rfl⟩

/-- Behind its first turn a walk comes to the places of its tail. -/
theorem ComesTo.of_tail (hgo : w.GoesOn 0) (h : w.tail.ComesTo x) : w.ComesTo x := by
  obtain ⟨k, hk, rfl⟩ := h
  refine ⟨k + 1, fun i hi => ?_, tail_at⟩
  cases i with
  | zero => exact hgo
  | succ i => exact hk i (by omega)

theorem log_goesOn (hgo : w.GoesOn 0) : log f (fuel + 1) w = f w.start ++ log f fuel w.tail := by
  have hvisit : w.visit w.start = .next := hgo.1
  have hleave : w.leave (w.move w.start) = false := hgo.2
  rw [log, hvisit]
  simp only [hleave, Bool.false_eq_true, if_false]

/-- A note in a log was made at a place that the walk comes to. -/
theorem exists_of_mem_log {b : β} (h : b ∈ log f fuel w) : ∃ x, w.ComesTo x ∧ b ∈ f x := by
  induction fuel generalizing w with
  | zero => cases h
  | succ fuel ih =>
      rw [log] at h
      rcases List.mem_append.mp h with hstart | hrest
      · exact ⟨w.start, comesTo_start, hstart⟩
      · split at hrest
        · next hvisit =>
            split at hrest
            · cases hrest
            · next hleave =>
                obtain ⟨x, hx, hb⟩ := ih hrest
                exact ⟨x, hx.of_tail ⟨hvisit, Bool.eq_false_iff.mpr hleave⟩, hb⟩
        · cases hrest

theorem mem_log {b : β} (h : w.ComesTo x) (hb : b ∈ f x) : ∃ fuel, b ∈ log f fuel w := by
  obtain ⟨k, hk, rfl⟩ := h
  refine ⟨k + 1, ?_⟩
  induction k generalizing w with
  | zero =>
      rw [log]
      exact List.mem_append_left _ hb
  | succ k ih =>
      rw [log_goesOn (hk 0 (Nat.succ_pos k))]
      exact List.mem_append_right _ (ih (w := w.tail) (fun i hi => hk (i + 1) (by omega)) hb)

/-- **What holds of all notes**, however many turns, holds of those at every place the walk comes to. -/
theorem forall_log_iff {P : β → Prop} :
    (∀ fuel, ∀ b ∈ log f fuel w, P b) ↔ ∀ x, w.ComesTo x → ∀ b ∈ f x, P b := by
  constructor
  · intro h x hx b hb
    obtain ⟨fuel, hfuel⟩ := mem_log hx hb
    exact h fuel b hfuel
  · intro h fuel b hb
    obtain ⟨x, hx, hbx⟩ := exists_of_mem_log hb
    exact h x hx b hbx

/-! ## Exits before visits -/

/-- The trail with its exits looked at before it visits a place. -/
def headed (w : Trail α) : Trail α :=
  { w with leave := fun _ => false, visit := fun x => if w.leave x then .stop else w.visit x }

theorem headed_goesOn_iff : w.headed.GoesOn k ↔ w.leave (w.at_ k) = false ∧ w.visit (w.at_ k) = .next := by
  show (if w.leave (w.at_ k) then Visit.stop else w.visit (w.at_ k)) = .next ∧ false = false ↔ _
  cases w.leave (w.at_ k) <;> simp

/-- Where it begins in front of its exit, it goes on as long as before. -/
theorem headed_goesOn (hstart : w.leave w.start = false) (h : ∀ i < k, w.GoesOn i) :
    ∀ i < k, w.headed.GoesOn i := by
  intro i hi
  rw [headed_goesOn_iff]
  refine ⟨?_, (h i hi).1⟩
  cases i with
  | zero => exact hstart
  | succ i => exact (h i (by omega)).2

theorem goesOn_of_headed (h : ∀ i < k, w.headed.GoesOn i) (hk : w.leave (w.at_ k) = false) :
    ∀ i < k, w.GoesOn i := by
  intro i hi
  refine ⟨(headed_goesOn_iff.mp (h i hi)).2, ?_⟩
  by_cases hlast : i + 1 = k
  · rw [hlast]
    exact hk
  · exact (headed_goesOn_iff.mp (h (i + 1) (by omega))).1

/-- The trail begins in front of its exit, or it comes to nothing. -/
theorem leave_start (h : ∀ i < k, w.headed.GoesOn i) (hk : w.leave (w.at_ k) = false) :
    w.leave w.start = false := by
  cases k with
  | zero => exact hk
  | succ k => exact (headed_goesOn_iff.mp (h 0 (Nat.succ_pos k))).1

theorem headed_circles_iff : w.headed.Circles ↔ w.leave w.start = false ∧ w.Circles := by
  constructor
  · rintro ⟨i, j, hij, hat, hgo⟩
    have hback : w.at_ i = w.at_ j := hat
    have hlast : w.leave (w.at_ j) = false := hback ▸ (headed_goesOn_iff.mp (hgo i hij)).1
    exact ⟨leave_start hgo hlast, i, j, hij, hat, goesOn_of_headed hgo hlast⟩
  · rintro ⟨hstart, i, j, hij, hat, hgo⟩
    exact ⟨i, j, hij, hat, headed_goesOn hstart hgo⟩

theorem headed_finds_iff : w.headed.Finds a ↔ w.leave w.start = false ∧ w.Finds a := by
  have hvisit (k : Nat) : w.headed.visit (w.headed.at_ k) = .found a ↔
      w.leave (w.at_ k) = false ∧ w.visit (w.at_ k) = .found a := by
    show (if w.leave (w.at_ k) then Visit.stop else w.visit (w.at_ k)) = .found a ↔ _
    cases w.leave (w.at_ k) <;> simp
  constructor
  · rintro ⟨k, hgo, hfound⟩
    obtain ⟨hlast, hfound⟩ := (hvisit k).mp hfound
    exact ⟨leave_start hgo hlast, k, goesOn_of_headed hgo hlast, hfound⟩
  · rintro ⟨hstart, k, hgo, hfound⟩
    refine ⟨k, headed_goesOn hstart hgo, (hvisit k).mpr ⟨?_, hfound⟩⟩
    cases k with
    | zero => exact hstart
    | succ k => exact (hgo k (Nat.lt_succ_self k)).2

/-- The trail with what it finds under `f`. -/
def map (f : α → β) (w : Trail α) : Trail β :=
  { w with
    visit := fun x =>
      match w.visit x with
      | .found a => .found (f a)
      | .stop => .stop
      | .next => .next }

theorem map_goesOn_iff {f : α → β} : (w.map f).GoesOn k ↔ w.GoesOn k := by
  apply and_congr_left'
  show (match w.visit (w.at_ k) with
    | .found a => .found (f a)
    | .stop => .stop
    | .next => .next) = Visit.next ↔ _
  cases w.visit (w.at_ k) <;> simp

theorem map_circles_iff {f : α → β} : (w.map f).Circles ↔ w.Circles :=
  exists₂_congr fun _ _ => and_congr_right fun _ => and_congr_right fun _ =>
    forall₂_congr fun _ _ => map_goesOn_iff

theorem map_finds_iff {f : α → β} {b : β} : (w.map f).Finds b ↔ ∃ a, f a = b ∧ w.Finds a := by
  have hvisit (k : Nat) : (w.map f).visit ((w.map f).at_ k) = .found b ↔
      ∃ a, f a = b ∧ w.visit (w.at_ k) = .found a := by
    show (match w.visit (w.at_ k) with
      | .found a => .found (f a)
      | .stop => .stop
      | .next => .next) = Visit.found b ↔ _
    cases w.visit (w.at_ k) <;> simp
  constructor
  · rintro ⟨k, hgo, hfound⟩
    obtain ⟨a, hf, ha⟩ := (hvisit k).mp hfound
    exact ⟨a, hf, k, fun i hi => map_goesOn_iff.mp (hgo i hi), ha⟩
  · rintro ⟨a, hf, k, hgo, ha⟩
    exact ⟨k, fun i hi => map_goesOn_iff.mpr (hgo i hi), (hvisit k).mpr ⟨a, hf, ha⟩⟩

/-! ## Loops that follow a trail -/

end Trail

/-- What a turn of a loop comes to. -/
inductive Turn (β σ : Type*) where
  | leave (b : β)
  | again (s : σ)

/-- A `while` loop, for at most `fuel` turns. -/
@[irreducible] def whileLoop {β σ : Type*} (turn : σ → Turn β σ) : Nat → σ → Option β
  | 0, _ => none
  | fuel + 1, s =>
      match turn s with
      | .leave b => some b
      | .again s => whileLoop turn fuel s

namespace Trail

variable {α β σ : Type*} {w : Trail α} {turn : σ → Turn β σ} {place : σ → Nat} {I : σ → Prop}
  {R : Option α → β → Prop} {fuel hi : Nat} {s s' : σ} {b : β}

/-- The loop is left in this turn or the next. -/
def LeavesSoon (turn : σ → Turn β σ) (s : σ) (b : β) : Prop :=
  turn s = .leave b ∨ ∃ s', turn s = .again s' ∧ turn s' = .leave b

theorem whileLoop_again (h : turn s = .again s') :
    whileLoop turn (fuel + 1) s = whileLoop turn fuel s' := by
  rw [whileLoop, h]

theorem LeavesSoon.whileLoop_eq (h : LeavesSoon turn s b) :
    whileLoop turn (fuel + 2) s = some b := by
  rcases h with hleave | ⟨s', hagain, hleave⟩
  · rw [whileLoop, hleave]
  · rw [whileLoop_again hagain, whileLoop, hleave]

/-- What a turn does at a place where the trail does `visit` and goes on to `next`. Both come to what `R`
relates, and `I` is kept on the way. -/
def Does (turn : σ → Turn β σ) (place : σ → Nat) (I : σ → Prop) (R : Option α → β → Prop) (s : σ)
    (next : Nat) : Visit α → Prop
  | .found a => ∃ b, LeavesSoon turn s b ∧ R (some a) b
  | .stop => ∃ b, LeavesSoon turn s b ∧ R none b
  | .next => ∃ s', turn s = .again s' ∧ place s' = next ∧ I s'

/-- Where the state is at a place of the trail, with `I`, a turn of the loop does what the trail does there.
The trail has its exits in its visits, as the loop has them in its turns. -/
structure Follows (turn : σ → Turn β σ) (w : Trail α) (place : σ → Nat) (I : σ → Prop)
    (R : Option α → β → Prop) : Prop where
  stays : ∀ x, w.leave x = false
  does : ∀ s, I s → Does turn place I R s (w.move (place s)) (w.visit (place s))

theorem Follows.tail (h : Follows turn w place I R) : Follows turn w.tail place I R :=
  ⟨h.stays, h.does⟩

/-- The loop comes to what the trail comes to. -/
theorem Follows.run_some {res : Option α} (h : Follows turn w place I R) (hs : I s)
    (hplace : place s = w.start) (hrun : w.run fuel = some res) :
    ∃ b, whileLoop turn (fuel + 1) s = some b ∧ R res b := by
  induction fuel generalizing w s with
  | zero => cases hrun
  | succ fuel ih =>
      have hdoes := h.does s hs
      rw [run, scan, ← hplace] at hrun
      cases hvisit : w.visit (place s) with
      | found a =>
          rw [hvisit] at hrun hdoes
          cases hrun
          obtain ⟨b, hsoon, hR⟩ := hdoes
          exact ⟨b, hsoon.whileLoop_eq, hR⟩
      | stop =>
          rw [hvisit] at hrun hdoes
          cases hrun
          obtain ⟨b, hsoon, hR⟩ := hdoes
          exact ⟨b, hsoon.whileLoop_eq, hR⟩
      | next =>
          rw [hvisit] at hrun hdoes
          obtain ⟨s', hturn, hplace', hs'⟩ := hdoes
          simp only [h.stays, Bool.false_eq_true, if_false] at hrun
          rw [hplace] at hplace' hrun
          rw [whileLoop_again hturn]
          exact ih (w := w.tail) h.tail hs' hplace' hrun

/-- It goes on where the trail does. -/
theorem Follows.run_none (h : Follows turn w place I R) (hs : I s) (hplace : place s = w.start)
    (hgo : ∀ k, w.GoesOn k) (fuel : Nat) : whileLoop turn fuel s = none := by
  induction fuel generalizing w s with
  | zero => rw [whileLoop]
  | succ fuel ih =>
      have hvisit : w.visit w.start = .next := (hgo 0).1
      have hdoes := h.does s hs
      rw [hplace, hvisit] at hdoes
      obtain ⟨s', hturn, hplace', hs'⟩ := hdoes
      rw [whileLoop_again hturn]
      exact ih (w := w.tail) h.tail hs' hplace' fun k => hgo (k + 1)

section
variable (hat : ∀ k, w.at_ k < hi) (hfuel : hi ≤ fuel)
include hat hfuel

/-- **A loop that follows a trail** comes to no end when the trail circles, and otherwise to what the
trail comes to. -/
theorem Follows.cases (h : Follows turn w place I R) (hs : I s) (hplace : place s = w.start) :
    (w.Circles ∧ whileLoop turn (fuel + 1) s = none) ∨
      (¬ w.Circles ∧ ∃ res b, whileLoop turn (fuel + 1) s = some b ∧ R res b ∧
        ∀ a, res = some a ↔ w.Finds a) := by
  by_cases hcircle : w.Circles
  · exact .inl ⟨hcircle, h.run_none hs hplace hcircle.goesOn _⟩
  · cases hrun : w.run fuel with
    | none => exact absurd ((run_none_iff hat hfuel).mp hrun) hcircle
    | some res =>
        obtain ⟨b, hloop, hR⟩ := h.run_some hs hplace hrun
        refine .inr ⟨hcircle, res, b, hloop, hR, fun a => ?_⟩
        rw [← run_found_iff hat hfuel, hrun, Option.some.injEq]

theorem Follows.none_iff (h : Follows turn w place I R) (hs : I s) (hplace : place s = w.start) :
    whileLoop turn (fuel + 1) s = none ↔ w.Circles := by
  rcases h.cases hat hfuel hs hplace with ⟨hcircle, hnone⟩ | ⟨hcircle, res, b, hsome, -⟩
  · exact iff_of_true hnone hcircle
  · exact iff_of_false (by rw [hsome]; exact Option.some_ne_none b) hcircle

end

end Trail

end Scan
