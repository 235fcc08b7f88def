import NeKernel.Lib.ByteStore

/-!
# Packed records

A packed C structure in a buffer is a run of bytes, and a field of it is a little-endian word at
a fixed offset. A record is read out of a store with `slice` and written back with `blit`; the
lemmas here say what a field holds after either, and after another field has been set.
-/

namespace ByteStore

/-- A field of a packed record: `width` bytes from `off` on. -/
structure Field where
  off : Nat
  width : Nat

namespace Field

/-- The value of the field in the record `r`. -/
def get (f : Field) (r : Store) : Nat := getLE r f.off f.width

/-- The record with the field set; what does not fit the width is cut off. -/
def set (f : Field) (v : Nat) (r : Store) : Store := putLE r f.off f.width v

/-- The fields share no byte. -/
def Apart (f g : Field) : Prop := f.off + f.width ≤ g.off ∨ g.off + g.width ≤ f.off

theorem Apart.symm {f g : Field} (h : f.Apart g) : g.Apart f := Or.symm h

instance (f g : Field) : Decidable (f.Apart g) := inferInstanceAs (Decidable (_ ∨ _))

/-- The field is one of a record of `n` bytes. -/
def Inside (f : Field) (n : Nat) : Prop := f.off + f.width ≤ n

instance (f : Field) (n : Nat) : Decidable (f.Inside n) := inferInstanceAs (Decidable (_ ≤ _))

variable {f g : Field} {r r' m src : Store} {a b n v : Nat}

theorem get_lt : f.get r < 256 ^ f.width := getLE_lt

@[simp] theorem get_set_same : f.get (f.set v r) = v % 256 ^ f.width := getLE_putLE_same

theorem get_set_of_apart (h : f.Apart g) : f.get (g.set v r) = f.get r :=
  getLE_putLE_of_disjoint h

@[simp] theorem get_zeros : f.get zeros = 0 := getLE_zeros

/-- A field depends on its own bytes only. -/
theorem get_congr (h : ∀ i < f.width, r (f.off + i) = r' (f.off + i)) : f.get r = f.get r' :=
  getLE_congr h

/-- Setting a field leaves every other byte of the record alone. -/
theorem set_apply {x : Nat} (h : x < f.off ∨ f.off + f.width ≤ x) : f.set v r x = r x :=
  putLE_apply_of_notMem h

/-- The field of the record at `a`, as a word of the store. -/
theorem get_slice : f.get (slice m a) = getLE m (a + f.off) f.width := getLE_slice

/-- A record written at `a` is read back there. -/
theorem get_slice_blit_same (h : f.off + f.width ≤ n) :
    f.get (slice (blit m a n src) a) = f.get src := by
  rw [get_slice, getLE_blit_inside (by omega) (by omega), Nat.add_sub_cancel_left]
  rfl

/-- A copy elsewhere leaves the field of a record alone. -/
theorem get_slice_blit_of_disjoint
    (h : b + f.off + f.width ≤ a ∨ a + n ≤ b + f.off) :
    f.get (slice (blit m a n src) b) = f.get (slice m b) := by
  rw [get_slice, get_slice, getLE_blit_of_disjoint h]

/-- Setting a field to what it holds changes nothing. -/
theorem set_get_self : f.set (f.get r) r = r :=
  putLE_getLE_self (Nat.mod_eq_of_lt getLE_lt)

end Field

/-! ## A record written field by field -/

/-- Write the fields of the record at `a` one after the other. What goes into a field may depend on the
store by then. -/
def writeFields (a : Nat) (ws : List (Field × (Store → Nat))) (m : Store) : Store :=
  ws.foldl (fun m w => putLE m (a + w.1.off) w.1.width (w.2 m)) m

variable {m : Store} {a n : Nat} {ws : List (Field × (Store → Nat))}
  {w : Field × (Store → Nat)}

theorem writeFields_cons :
    writeFields a (w :: ws) m = writeFields a ws (putLE m (a + w.1.off) w.1.width (w.2 m)) := rfl

theorem onlyAt_writeFields (hin : ∀ f ∈ ws.map Prod.fst, f.Inside n) :
    OnlyAt m (writeFields a ws m) a n := by
  induction ws generalizing m with
  | nil => exact .refl
  | cons w ws ih =>
      rw [List.map_cons, List.forall_mem_cons] at hin
      have hw : w.1.off + w.1.width ≤ n := hin.1
      have honly : OnlyAt m (putLE m (a + w.1.off) w.1.width (w.2 m)) a n :=
        .putLE (Nat.le_add_right _ _) (by omega)
      exact honly.trans (ih hin.2)

/-- A field apart from those that are written. -/
theorem getLE_writeFields_of_apart {f : Field} (hap : ∀ g ∈ ws.map Prod.fst, f.Apart g) :
    getLE (writeFields a ws m) (a + f.off) f.width = getLE m (a + f.off) f.width := by
  induction ws generalizing m with
  | nil => rfl
  | cons w ws ih =>
      rw [List.map_cons, List.forall_mem_cons] at hap
      have hw : f.Apart w.1 := hap.1
      rw [writeFields_cons, ih hap.2]
      apply getLE_putLE_of_disjoint
      unfold Field.Apart at hw
      omega

/-- Each field reads as what was written into it, if that did not depend on the record itself. -/
theorem getLE_writeFields (hap : (ws.map Prod.fst).Pairwise Field.Apart)
    (hin : ∀ f ∈ ws.map Prod.fst, f.Inside n) (hmem : w ∈ ws)
    (hfixed : ∀ m' : Store, OnlyAt m m' a n → w.2 m' = w.2 m) :
    getLE (writeFields a ws m) (a + w.1.off) w.1.width = w.2 m % 256 ^ w.1.width := by
  induction ws generalizing m with
  | nil => exact absurd hmem List.not_mem_nil
  | cons w' ws ih =>
      rw [List.map_cons, List.pairwise_cons] at hap
      rw [List.map_cons, List.forall_mem_cons] at hin
      rw [writeFields_cons]
      rcases List.mem_cons.mp hmem with rfl | hmem
      · rw [getLE_writeFields_of_apart hap.1, getLE_putLE_same]
      · have hw' : w'.1.off + w'.1.width ≤ n := hin.1
        have honly : OnlyAt m (putLE m (a + w'.1.off) w'.1.width (w'.2 m)) a n :=
          .putLE (Nat.le_add_right _ _) (by omega)
        rw [ih hap.2 hin.2 hmem fun m' hm' => ?_, hfixed _ honly]
        rw [hfixed m' (honly.trans hm'), hfixed _ honly]

/-- Writing a record that agrees with the store at a place leaves the place alone. -/
theorem blit_eq_of_agree {m src : Store} {a n x : Nat}
    (h : a ≤ x → x < a + n → src (x - a) = m x) : blit m a n src x = m x := by
  unfold blit
  split
  · next hx => exact h hx.1 hx.2
  · rfl

end ByteStore
